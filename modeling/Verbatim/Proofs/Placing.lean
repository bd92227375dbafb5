import Verbatim.Proofs.Trimming
import Verbatim.Proofs.Value
import Verbatim.Proofs.Within

/-!
# Places in a tree

A view that was reached from a root stands where its path says. The text of the tree is what stands
before the view, the text of the view, and what stands after it, and the view starts as many bytes
into the tree as stand before it.
-/

namespace Verbatim

namespace Green

/-- The characters of what stands in some slots. -/
def charsOf (slots : List Slot) : List Char := (leavesOf slots).flatMap fun t => t.data.text.toList

@[simp] theorem charsOf_nil : charsOf [] = [] := rfl

@[simp] theorem charsOf_append (a b : List Slot) : charsOf (a ++ b) = charsOf a ++ charsOf b := by
  simp [charsOf, leavesOf_append]

theorem charsOf_none_cons (slots : List Slot) : charsOf (none :: slots) = charsOf slots := rfl

theorem charsOf_some_cons (g : Green) (slots : List Slot) :
    charsOf (some g :: slots) = g.text.toList ++ charsOf slots := by
  simp [charsOf, leavesOf, toList_text]

/-- Only nodes have slots. -/
theorem isNode_of_lt {g : Green} {index : Nat} (h : index < g.slots.length) : g.isNode = true := by
  cases g with
  | token t => cases h
  | node head slots => rfl

/-- The text of a node is what stands in its slots. -/
theorem toList_text_of_slots {g : Green} (h : g.isNode = true) :
    g.text.toList = charsOf g.slots := by
  cases g with
  | token t => cases h
  | node head slots => rw [toList_text, leaves, charsOf, Green.slots]

/-- What stands in the slots is what stands before a slot, in it and after it. -/
theorem charsOf_eq {slots : List Slot} {index : Nat} {slot : Slot}
    (h : slots[index]? = some slot) :
    charsOf slots =
      charsOf (slots.take index) ++ (charsOf [slot] ++ charsOf (slots.drop (index + 1))) := by
  obtain ⟨hlt, rfl⟩ := List.getElem?_eq_some_iff.mp h
  rw [← charsOf_append, ← charsOf_append, List.singleton_append, ← List.drop_eq_getElem_cons hlt,
    List.take_append_drop]

/-- Follows slots downwards. -/
def descend? (g : Green) : List Nat → Option Green
  | [] => some g
  | index :: path => (g.slots[index]?.join).bind fun c => c.descend? path

/-- A path may be followed in two parts. -/
theorem descend?_append (g : Green) (p q : List Nat) :
    g.descend? (p ++ q) = (g.descend? p).bind fun c => c.descend? q := by
  induction p generalizing g with
  | nil => rfl
  | cons index p ih =>
    rw [List.cons_append, descend?, descend?]
    cases g.slots[index]?.join with
    | none => rfl
    | some c => exact ih c

/-- The first step of a path leads to a child. -/
theorem descend?_cons_of_slot {g c : Green} {index : Nat} (h : g.slots[index]? = some (some c))
    (path : List Nat) : g.descend? (index :: path) = c.descend? path := by
  rw [descend?, h]
  rfl

/-- A path that leads somewhere leads to a child first. -/
theorem exists_slot_of_descend? {g d : Green} {index : Nat} {path : List Nat}
    (h : g.descend? (index :: path) = some d) :
    ∃ c, g.slots[index]? = some (some c) ∧ c.descend? path = some d := by
  obtain ⟨c, hc, hd⟩ := Option.bind_eq_some_iff.mp h
  exact ⟨c, Option.join_eq_some_iff.mp hc, hd⟩

end Green

/-- Slots are as wide as their characters, if this is so of what stands in them. -/
theorem Green.slotsWidth_eq_of_each {slots : List Slot}
    (h : ∀ c, some c ∈ slots → c.width = Text.byteLength c.text.toList) :
    slotsWidth slots = Text.byteLength (charsOf slots) := by
  induction slots with
  | nil => rfl
  | cons slot slots ih =>
    have htail := ih fun c hc => h c (List.mem_cons_of_mem _ hc)
    cases slot with
    | none => simpa [slotsWidth, charsOf_none_cons] using htail
    | some c =>
      simp only [slotsWidth, sumOf_cons, Option.elim_some] at htail ⊢
      rw [charsOf_some_cons, Text.byteLength_append, h c List.mem_cons_self, htail]

namespace Registry

variable {r : Registry}

/-- What is known is as wide as its text. -/
theorem Knows.width_eq {g : Green} (h : r.Knows g) : g.width = Text.byteLength g.text.toList := by
  induction g using Green.induct with
  | token t =>
    simp [Green.width, TokenData.width, Green.toList_text, Green.leaves, Text.byteLength_toList]
  | node head slots ih =>
    rw [Green.toList_text_of_slots rfl]
    refine (r.width_eq h).trans (Green.slotsWidth_eq_of_each fun c hc => ?_)
    exact ih c hc (r.find_slot h hc)

/-- Known slots are as wide as their text has bytes. -/
theorem KnowsAll.slotsWidth_eq {slots : List Slot} (h : r.KnowsAll slots) :
    Green.slotsWidth slots = Text.byteLength (Green.charsOf slots) :=
  Green.slotsWidth_eq_of_each fun c hc => (h c hc).width_eq

/-- What stands in the slots of a known element is known. -/
theorem Knows.knowsAll_slots {g : Green} (h : r.Knows g) : r.KnowsAll g.slots := fun _ hc =>
  h.of_within (.of_slot hc)

end Registry

namespace View

/-- Whether each ancestor of a view has what the view shows in the slot that it names. -/
def Placed : View → Prop
  | root .. => True
  | child parent index offset g =>
    parent.Placed ∧ parent.slot? index = some (child parent index offset g)

/-- A view is placed if its parent is, and it stands in its slot, after the slots before it. -/
theorem placed_child {parent : View} {index offset : Nat} {g : Green} :
    (child parent index offset g).Placed ↔ parent.Placed ∧
      parent.green.slots[index]? = some (some g) ∧
      offset = parent.offset + Green.slotsWidth (parent.green.slots.take index) := by
  rw [Placed, slot?_eq, Option.map_eq_some_iff]
  refine and_congr_right fun _ => ⟨fun ⟨c, hc, heq⟩ => ?_, fun ⟨hg, hoffset⟩ => ?_⟩
  · obtain ⟨-, -, hoffset, rfl⟩ := (child.injEq ..).mp heq
    exact ⟨Option.join_eq_some_iff.mp hc, hoffset.symm⟩
  · exact ⟨g, Option.join_eq_some_iff.mpr hg, by rw [hoffset]⟩

theorem descend?_append (v : View) (p q : List Nat) :
    v.descend? (p ++ q) = (v.descend? p).bind fun c => c.descend? q := by
  induction p generalizing v with
  | nil => rfl
  | cons index p ih =>
    rw [List.cons_append, descend?, descend?]
    cases v.slot? index with
    | none => rfl
    | some c => exact ih c

/-- Walking down meets the same elements with their places and without. -/
theorem map_green_descend? (v : View) (path : List Nat) :
    (v.descend? path).map green = v.green.descend? path := by
  induction path generalizing v with
  | nil => rfl
  | cons index path ih =>
    rw [descend?, Green.descend?, slot?_eq]
    cases v.green.slots[index]?.join with
    | none => rfl
    | some g => exact ih _

/-- What is reached from a view in its place is in its place. -/
theorem Placed.of_descend? {v u : View} {path : List Nat} (hv : v.Placed)
    (h : v.descend? path = some u) : u.Placed ∧ u.top = v.top ∧ u.path = v.path ++ path := by
  induction path generalizing v with
  | nil =>
    cases h
    exact ⟨hv, rfl, (List.append_nil _).symm⟩
  | cons index path ih =>
    obtain ⟨c, hc, hu⟩ := Option.bind_eq_some_iff.mp h
    have hplaced : c.Placed ∧ c.top = v.top ∧ c.path = v.path ++ [index] := by
      have hslot := hc
      rw [slot?_eq] at hslot
      obtain ⟨g, -, rfl⟩ := Option.map_eq_some_iff.mp hslot
      exact ⟨⟨hv, hc⟩, rfl, rfl⟩
    obtain ⟨hu, htop, hpath⟩ := ih hplaced.1 hu
    refine ⟨hu, htop.trans hplaced.2.1, ?_⟩
    rw [hpath, hplaced.2.2, List.append_assoc, List.singleton_append]

/-- A view in its place is found there. -/
theorem Placed.descend?_top {v : View} (hv : v.Placed) : v.top.descend? v.path = some v := by
  induction v with
  | root store g => rfl
  | child parent index offset g ih =>
    rw [top, path, descend?_append, ih hv.1, Option.bind_some, descend?, hv.2]
    rfl

/-- What a placed view shows is within its tree. -/
theorem Placed.within {v : View} (hv : v.Placed) : v.green.Within v.top.green := by
  induction v with
  | root store g => exact .refl
  | child parent index offset g ih =>
    exact (Green.Within.of_slot (List.mem_of_getElem? (placed_child.mp hv).2.1)).trans (ih hv.1)

theorem top_mem_ancestors (v : View) : v.top ∈ v.ancestors := by
  induction v with
  | root store g => exact List.mem_cons_self
  | child parent index offset g ih => exact List.mem_cons_of_mem _ ih

/-- The characters that stand before a view in its tree. -/
def before : View → List Char
  | root .. => []
  | child parent index _ _ => before parent ++ Green.charsOf (parent.green.slots.take index)

/-- The characters that stand after a view in its tree. -/
def after : View → List Char
  | root .. => []
  | child parent index _ _ => Green.charsOf (parent.green.slots.drop (index + 1)) ++ after parent

/-- The text of a tree around a view. -/
theorem Placed.toList_text_top {v : View} (hv : v.Placed) :
    v.top.text.toList = v.before ++ (v.text.toList ++ v.after) := by
  induction v with
  | root store g => simp [top, before, after]
  | child parent index offset g ih =>
    obtain ⟨hparent, hslot, -⟩ := placed_child.mp hv
    have hnode : parent.green.isNode = true :=
      Green.isNode_of_lt (List.getElem?_eq_some_iff.mp hslot).1
    have htext : parent.text.toList = Green.charsOf (parent.green.slots.take index) ++
        (g.text.toList ++ Green.charsOf (parent.green.slots.drop (index + 1))) := by
      rw [text, Green.toList_text_of_slots hnode, Green.charsOf_eq hslot, Green.charsOf_some_cons,
        Green.charsOf_nil, List.append_nil]
    have hparent := ih hparent
    rw [htext] at hparent
    simpa [top, text, before, after, green] using hparent

/-- A view starts where what stands before it ends. -/
theorem Placed.offset_eq {v : View} (hv : v.Placed) {r : Registry} (htop : r.Knows v.top.green) :
    v.offset = Text.byteLength v.before := by
  induction v with
  | root store g => rfl
  | child parent index offset g ih =>
    obtain ⟨hparent, -, hoffset⟩ := placed_child.mp hv
    have hslots : r.KnowsAll (parent.green.slots.take index) := fun c hc =>
      (htop.of_within hparent.within).knowsAll_slots c (List.mem_of_mem_take hc)
    rw [View.offset, hoffset, before, Text.byteLength_append, ih hparent htop, hslots.slotsWidth_eq]

end View

end Verbatim
