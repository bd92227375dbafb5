import Verbatim.Proofs.Moving

/-!
# Offsets in 32 bits

Views compute offsets with sums and differences of widths. The same computations in 32 bits fail as
soon as a sum leaves the range or more is subtracted than there is. They are the ends of spans, the
offsets of slots, the running offsets of children that are taken from either end, and the offsets of
siblings; all moves are put together from these. In a tree of genuine elements none of them fails.
-/

namespace Verbatim

namespace Width

/-- Subtracts a byte count from another. -/
def sub (a b : Nat) : Except Fault Nat := if b ≤ a then .ok (a - b) else .error .positionUnderflow

theorem add_of_lt {a b : Nat} (h : a + b < limit) : add a b = .ok (a + b) := if_pos h

theorem sub_of_le {a b : Nat} (h : b ≤ a) : sub a b = .ok (a - b) := if_pos h

end Width

namespace View

/-- Where the element stands, computed in 32 bits. -/
def span32 (v : View) : Except Fault Text.Span := do
  return ⟨v.offset, ← Width.add v.offset v.width⟩

/-- What stands in slot `index`, placed in 32 bits. -/
def slotAt32 (v : View) (index : Nat) : Except Fault (Option View) := do
  match ← v.green.slot index with
  | none => return none
  | some g =>
    let before ← Width.sum ((v.green.slots.take index).filterMap fun slot => slot.map Green.width)
    return some (.child v index (← Width.add v.offset before) g)

/-- Places slots one after another in 32 bits. -/
def placeSlots32 (parent : View) : Nat → Nat → List Slot → Except Fault (List (Option View))
  | _, _, [] => return []
  | index, offset, none :: rest => return none :: (← placeSlots32 parent (index + 1) offset rest)
  | index, offset, some g :: rest => do
    let stop ← Width.add offset g.width
    return some (.child parent index offset g) :: (← placeSlots32 parent (index + 1) stop rest)

/-- Places slots one before another in 32 bits. -/
def placeBack32 (parent : View) : Nat → Nat → List Slot → Except Fault (List View)
  | _, _, [] => return []
  | index, offset, none :: rest => placeBack32 parent (index - 1) offset rest
  | index, offset, some g :: rest => do
    let start ← Width.sub offset g.width
    return .child parent (index - 1) start g :: (← placeBack32 parent (index - 1) start rest)

/-- Every slot of the element, placed in 32 bits. -/
def slots32 (v : View) : Except Fault (List (Option View)) :=
  placeSlots32 v 0 v.offset v.green.slots

/-- The present children, last to first, placed in 32 bits. -/
def childrenBack32 (v : View) : Except Fault (List View) := do
  placeBack32 v v.slotCount (← v.span32).stop v.green.slots.reverse

/-- The present siblings after a view, placed in 32 bits. -/
def siblingsAfter32 : View → Except Fault (List View)
  | root .. => return []
  | child parent index offset g => do
    let stop ← Width.add offset g.width
    let placed ← placeSlots32 parent (index + 1) stop (parent.green.slots.drop (index + 1))
    return placed.filterMap fun slot => slot

/-- The present siblings before a view, placed in 32 bits. -/
def siblingsBefore32 : View → Except Fault (List View)
  | root .. => return []
  | child parent index offset _ =>
    placeBack32 parent index offset (parent.green.slots.take index).reverse

end View

namespace Children

/-- All children of a node, where the back is computed in 32 bits. -/
def ofView32 (v : View) : Except Fault Children := do
  return ⟨v, 0, v.offset, v.green.slots, (← v.span32).stop⟩

/-- Takes the first child that is left, and moves the front in 32 bits. -/
def next32 (c : Children) : Except Fault (Option View × Children) :=
  match h : c.slots with
  | [] => return (none, c)
  | none :: rest =>
    have : rest.length < c.slots.length := by simp [h]
    next32 { c with front := c.front + 1, slots := rest }
  | some g :: rest => do
    let offset ← Width.add c.frontOffset g.width
    return (some (.child c.parent c.front c.frontOffset g),
      { c with front := c.front + 1, frontOffset := offset, slots := rest })
termination_by c.slots.length

/-- Takes the last child that is left, and moves the back in 32 bits. -/
def nextBack32 (c : Children) : Except Fault (Option View × Children) :=
  match h : c.slots.getLast? with
  | none => return (none, c)
  | some none =>
    have : c.slots.dropLast.length < c.slots.length := by
      obtain ⟨init, hinit⟩ := List.getLast?_eq_some_iff.mp h
      simp [hinit]
    nextBack32 { c with slots := c.slots.dropLast }
  | some (some g) => do
    let offset ← Width.sub c.backOffset g.width
    return (some (.child c.parent (c.front + (c.slots.length - 1)) offset g),
      { c with slots := c.slots.dropLast, backOffset := offset })
termination_by c.slots.length

end Children

/-- Whether all that is computed at a view comes out the same in 32 bits. -/
structure View.Fits (v : View) : Prop where
  span : v.span32 = .ok v.span
  slotAt : ∀ index, v.slotAt32 index = v.slotAt index
  slots : v.slots32 = .ok v.slots
  childrenBack : v.childrenBack32 = .ok v.childrenBack
  siblingsAfter : v.siblingsAfter32 = .ok v.siblingsAfter
  siblingsBefore : v.siblingsBefore32 = .ok v.siblingsBefore
  ofView : Children.ofView32 v = .ok (.ofView v)
  next : ∀ c : Children, c.From v → c.next32 = .ok c.next
  nextBack : ∀ c : Children, c.From v → c.nextBack32 = .ok c.nextBack

namespace View

/-- Slots are placed as with unbounded numbers if the end of the last one fits. -/
theorem placeSlots32_eq {parent : View} {index offset : Nat} {slots : List Slot}
    (h : offset + Green.slotsWidth slots < Width.limit) :
    placeSlots32 parent index offset slots = .ok (placeSlots parent index offset slots) := by
  induction slots generalizing index offset with
  | nil => rfl
  | cons slot slots ih =>
    rw [Green.slotsWidth, sumOf_cons, ← Green.slotsWidth] at h
    cases slot with
    | none =>
      rw [placeSlots32, ih (by simpa using h)]
      rfl
    | some g =>
      rw [Option.elim_some, ← Nat.add_assoc] at h
      have hadd := Width.add_of_lt (Nat.lt_of_le_of_lt (Nat.le_add_right ..) h)
      simp only [placeSlots32, hadd, ih h, bind, Except.bind]
      rfl

/-- Slots are placed from the end as with unbounded numbers if they start at 0 or after. -/
theorem placeBack32_eq {parent : View} {index offset : Nat} {slots : List Slot}
    (h : Green.slotsWidth slots ≤ offset) :
    placeBack32 parent index offset slots = .ok (placeBack parent index offset slots) := by
  induction slots generalizing index offset with
  | nil => rfl
  | cons slot slots ih =>
    rw [Green.slotsWidth, sumOf_cons, ← Green.slotsWidth] at h
    cases slot with
    | none => exact ih (by simpa using h)
    | some g =>
      rw [Option.elim_some] at h
      have hrest : Green.slotsWidth slots ≤ offset - g.width := by omega
      have hsub : Width.sub offset g.width = .ok (offset - g.width) := Width.sub_of_le (by omega)
      simp only [placeBack32, hsub, ih hrest, bind, Except.bind]
      rfl

end View

namespace Children

variable {c : Children}

/-- An iterator gives the next child as with unbounded numbers. -/
theorem next32_eq (h : c.slots = [] ∨ c.frontOffset + Green.slotsWidth c.slots < Width.limit) :
    c.next32 = .ok c.next := by
  obtain ⟨parent, front, frontOffset, slots, backOffset⟩ := c
  induction slots generalizing front with
  | nil =>
    rw [next32, next]
    rfl
  | cons slot slots ih =>
    replace h := h.resolve_left (List.cons_ne_nil slot slots)
    rw [Green.slotsWidth, sumOf_cons, ← Green.slotsWidth] at h
    cases slot with
    | none =>
      rw [next32, next]
      exact ih (front + 1) (.inr (by simpa using h))
    | some g =>
      rw [Option.elim_some, ← Nat.add_assoc] at h
      have hadd := Width.add_of_lt (Nat.lt_of_le_of_lt (Nat.le_add_right ..) h)
      rw [next32, next]
      simp only [hadd, bind, Except.bind]
      rfl

/-- An iterator gives the last child as with unbounded numbers. -/
theorem nextBack32_eq (h : c.slots = [] ∨ Green.slotsWidth c.slots ≤ c.backOffset) :
    c.nextBack32 = .ok c.nextBack := by
  fun_induction nextBack c with
  | case1 c hs =>
    rw [nextBack32]
    split
    · rfl
    · next hs' => cases hs.symm.trans hs'
    · next hs' => cases hs.symm.trans hs'
  | case2 c hs _ ih =>
    obtain ⟨init, hinit⟩ := List.getLast?_eq_some_iff.mp hs
    have hwidth : Green.slotsWidth c.slots.dropLast ≤ c.backOffset := by
      have hle := h.resolve_left (by simp [hinit])
      simpa [hinit, Green.slotsWidth] using hle
    rw [nextBack32]
    split
    · next hs' => cases hs.symm.trans hs'
    · exact ih (.inr hwidth)
    · next hs' => cases hs.symm.trans hs'
  | case3 c g hs offset =>
    obtain ⟨init, hinit⟩ := List.getLast?_eq_some_iff.mp hs
    have hsub : Width.sub c.backOffset g.width = .ok offset := by
      have hle := h.resolve_left (by simp [hinit])
      rw [hinit] at hle
      refine Width.sub_of_le (Nat.le_trans ?_ hle)
      simp [Green.slotsWidth]
    rw [nextBack32]
    split
    · next hs' => cases hs.symm.trans hs'
    · next hs' => cases hs.symm.trans hs'
    · next g' hs' =>
      cases hs.symm.trans hs'
      simp only [hsub, bind, Except.bind]
      rfl

end Children

namespace View

variable {r v : View}

/-- Slots are as wide as what stands before one of them, in it and after it. -/
theorem slotsWidth_eq_of_getElem? {slots : List Slot} {index : Nat} {g : Green}
    (h : slots[index]? = some (some g)) :
    Green.slotsWidth slots = Green.slotsWidth (slots.take index) +
      (g.width + Green.slotsWidth (slots.drop (index + 1))) := by
  obtain ⟨hlt, hget⟩ := List.getElem?_eq_some_iff.mp h
  have hdrop := List.drop_eq_getElem_cons hlt
  rw [hget] at hdrop
  conv => lhs; rw [← List.take_append_drop index slots, hdrop]
  simp [Green.slotsWidth]

theorem slotsWidth_reverse (slots : List Slot) :
    Green.slotsWidth slots.reverse = Green.slotsWidth slots := by
  induction slots with
  | nil => rfl
  | cons slot slots ih =>
    simp only [Green.slotsWidth, List.reverse_cons, sumOf_append, sumOf_cons, sumOf_nil] at ih ⊢
    omega

/-- An element ends within its tree. -/
theorem Stands.stop_le (h : Stands r v) (hr : r.green.Genuine) : v.span.stop ≤ r.width := by
  rw [span, Text.Span.stop_ofWidth]
  induction v with
  | root store g =>
    have hwidth : (root store g).offset + (root store g).width = r.width := by
      rw [← h.top_eq, top, View.offset, Nat.zero_add]
    exact Nat.le_of_eq hwidth
  | child parent index offset g ih =>
    obtain ⟨hparent, hslot, hoffset⟩ := placed_child.mp h.placed
    have hstands : Stands r parent := ⟨hparent, h.top_eq⟩
    have hnode : parent.green.isNode = true :=
      Green.isNode_of_lt (List.getElem?_eq_some_iff.mp hslot).1
    have hwidth := (hstands.genuine hr).slotsWidth_slots hnode
    have hsplit := slotsWidth_eq_of_getElem? hslot
    have hle := ih hstands
    rw [width] at hle
    change offset + g.width ≤ r.width
    omega

/-- Everything in a genuine tree ends within the bound. -/
theorem Stands.stop_lt (h : Stands r v) (hr : r.green.Genuine) : v.span.stop < Width.limit :=
  Nat.lt_of_le_of_lt (h.stop_le hr) hr.width_lt

/-- The slots of a genuine element end no later than the element. -/
theorem add_slotsWidth_le (hv : v.green.Genuine) :
    v.offset + Green.slotsWidth v.green.slots ≤ v.span.stop := by
  rcases slots_eq_nil_or_stop_eq hv with hnil | hstop
  · rw [hnil]
    exact Nat.le_add_right ..
  · exact Nat.le_of_eq hstop.symm

theorem slotsWidth_take_le (slots : List Slot) (n : Nat) :
    Green.slotsWidth (slots.take n) ≤ Green.slotsWidth slots := by
  have hsplit : Green.slotsWidth slots =
      Green.slotsWidth (slots.take n) + Green.slotsWidth (slots.drop n) := by
    rw [Green.slotsWidth, Green.slotsWidth, Green.slotsWidth, ← sumOf_append, List.take_append_drop]
  omega

/-- The span of a view that ends within the bound is the unbounded one. -/
theorem span32_eq (h : v.span.stop < Width.limit) : v.span32 = .ok v.span := by
  rw [span32, Width.add_of_lt h]
  rfl

/-- A slot is looked up as with unbounded numbers. -/
theorem slotAt32_eq (h : v.offset + Green.slotsWidth v.green.slots < Width.limit) (index : Nat) :
    v.slotAt32 index = v.slotAt index := by
  unfold slotAt32 slotAt Green.slot
  cases hslot : v.green.slots[index]? with
  | none => rfl
  | some slot =>
    cases slot with
    | none => rfl
    | some g =>
      have hle : index ≤ v.green.slots.length :=
        Nat.le_of_lt (List.getElem?_eq_some_iff.mp hslot).1
      have hbound := slotsWidth_take_le v.green.slots index
      have hadd : Width.add v.offset (Green.slotsWidth (v.green.slots.take index)) =
          .ok (v.offset + Green.slotsWidth (v.green.slots.take index)) :=
        Width.add_of_lt (by omega)
      have hsum : Width.sum ((v.green.slots.take index).filterMap fun slot =>
          slot.map Green.width) = .ok (Green.slotsWidth (v.green.slots.take index)) :=
        Width.sum_eq_ok_iff.mpr ⟨Alloc.sumOf_filterMap_width _, by omega⟩
      simp only [Green.slotOffset, if_pos hle, hsum, hadd, bind, Except.bind]

/-- The siblings after a view are found as with unbounded numbers. -/
theorem siblingsAfter32_eq (h : Stands r v) (hr : r.green.Genuine) :
    v.siblingsAfter32 = .ok v.siblingsAfter := by
  cases v with
  | root store g => rfl
  | child parent index offset g =>
    obtain ⟨hparent, hslot, hoffset⟩ := placed_child.mp h.placed
    have hstands : Stands r parent := ⟨hparent, h.top_eq⟩
    have hbound := Nat.lt_of_le_of_lt (add_slotsWidth_le (hstands.genuine hr)) (hstands.stop_lt hr)
    have hsplit := slotsWidth_eq_of_getElem? hslot
    have hrest : offset + g.width + Green.slotsWidth (parent.green.slots.drop (index + 1)) <
        Width.limit := by omega
    have hadd : Width.add offset g.width = .ok (offset + g.width) := Width.add_of_lt (by omega)
    simp only [siblingsAfter32, hadd, placeSlots32_eq hrest, bind, Except.bind]
    rfl

/-- The siblings before a view are found as with unbounded numbers. -/
theorem siblingsBefore32_eq (h : Stands r v) : v.siblingsBefore32 = .ok v.siblingsBefore := by
  cases v with
  | root store g => rfl
  | child parent index offset g =>
    obtain ⟨-, -, hoffset⟩ := placed_child.mp h.placed
    refine placeBack32_eq ?_
    rw [slotsWidth_reverse, hoffset]
    exact Nat.le_add_left ..

/-- The children are read from the end as with unbounded numbers. -/
theorem childrenBack32_eq (hv : v.green.Genuine) (h : v.span.stop < Width.limit) :
    v.childrenBack32 = .ok v.childrenBack := by
  rw [childrenBack32, span32_eq h]
  refine placeBack32_eq ?_
  rw [slotsWidth_reverse]
  exact Nat.le_trans (Nat.le_add_left ..) (add_slotsWidth_le hv)

/-- In a tree of genuine elements nothing that is computed at a view leaves 32 bits. -/
theorem Stands.fits (h : Stands r v) (hr : r.green.Genuine) : v.Fits := by
  have hv := h.genuine hr
  have hstop := h.stop_lt hr
  have hslots := Nat.lt_of_le_of_lt (add_slotsWidth_le hv) hstop
  refine ⟨span32_eq hstop, slotAt32_eq hslots, placeSlots32_eq hslots, childrenBack32_eq hv hstop,
    siblingsAfter32_eq h hr, siblingsBefore32_eq h, ?ofView, fun c hc => ?next, fun c hc => ?back⟩
  case ofView =>
    rw [Children.ofView32, span32_eq hstop]
    rfl
  case next =>
    obtain hnil | ⟨front, back, hsplits⟩ := (hc.at hv).splits
    · exact Children.next32_eq (.inl hnil)
    · refine Children.next32_eq (.inr ?_)
      rw [hsplits.slots_eq] at hslots
      rw [hsplits.frontOffset_eq]
      simp only [Green.slotsWidth, sumOf_append] at hslots ⊢
      omega
  case back =>
    obtain hnil | ⟨front, back, hsplits⟩ := (hc.at hv).splits
    · exact Children.nextBack32_eq (.inl hnil)
    · refine Children.nextBack32_eq (.inr ?_)
      rw [hsplits.backOffset_eq]
      simp only [Green.slotsWidth, sumOf_append]
      omega

end View

end Verbatim
