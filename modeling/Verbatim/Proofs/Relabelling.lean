import Verbatim.Diagnostic.Rules
import Verbatim.Proofs.Walking

/-!
# Relabelled trees

A relabelling changes elements one by one and leaves the structure of a tree as it is: kinds,
presences, errors and slots stay, and offsets change along with the widths. Whatever looks at the
structure of a tree alone commutes with a relabelling: what stands in a slot, the traversal of a
tree, and the search for markers. Taking the shape of a tree and taking its value are two of them.
-/

namespace Verbatim

/-- A change of elements and of offsets that leaves the structure of trees as it is. -/
structure Relabelling where
  /-- What becomes of an element. -/
  element : Green → Green
  /-- What becomes of an offset. -/
  place : Nat → Nat
  kind_element : ∀ g, (element g).kind = g.kind
  presence_element : ∀ g, (element g).presence = g.presence
  hasError_element : ∀ g, (element g).hasError = g.hasError
  isNode_element : ∀ g, (element g).isNode = g.isNode
  slots_element : ∀ g, (element g).slots = g.slots.map (Option.map element)
  place_zero : place 0 = 0
  place_add : ∀ offset g, place (offset + g.width) = place offset + (element g).width

namespace Relabelling

/-- What becomes of some slots. -/
def slots (r : Relabelling) (slots : List Slot) : List Slot := slots.map (Option.map r.element)

/-- The place after some slots is as far ahead as they are wide. -/
theorem place_slotsWidth (r : Relabelling) (offset : Nat) (slots : List Slot) :
    r.place (offset + Green.slotsWidth slots) =
      r.place offset + Green.slotsWidth (r.slots slots) := by
  induction slots generalizing offset with
  | nil => rfl
  | cons slot rest ih =>
    have hcons (slot : Slot) (rest : List Slot) :
        Green.slotsWidth (slot :: rest) = slot.elim 0 Green.width + Green.slotsWidth rest := rfl
    cases slot with
    | none => simpa [hcons, slots] using ih offset
    | some g =>
      have hrest := ih (offset + g.width)
      rw [r.place_add] at hrest
      simpa [hcons, slots, Nat.add_assoc] using hrest

end Relabelling

namespace View

/-- The view after a relabelling of the element and of everything around it. -/
def relabel (r : Relabelling) : View → View
  | root _ g => root 0 (r.element g)
  | child parent index offset g => child (parent.relabel r) index (r.place offset) (r.element g)

variable (r : Relabelling) (v : View)

/-- A relabelled view shows the relabelled element. -/
@[simp] theorem green_relabel : (v.relabel r).green = r.element v.green := by cases v <;> rfl

/-- A relabelled view stands where its offset is moved to. -/
@[simp] theorem offset_relabel : (v.relabel r).offset = r.place v.offset := by
  cases v with
  | root store g => exact r.place_zero.symm
  | child parent index offset g => rfl

/-- A relabelled view is reached by the same path. -/
@[simp] theorem path_relabel : (v.relabel r).path = v.path := by
  induction v with
  | root store g => rfl
  | child parent index offset g ih => rw [relabel, path, path, ih]

@[simp] theorem kind_relabel : (v.relabel r).kind = v.kind := by simp [kind, r.kind_element]

@[simp] theorem isMissing_relabel : (v.relabel r).isMissing = v.isMissing := by
  simp [isMissing, Green.isMissing, r.presence_element]

@[simp] theorem hasError_relabel : (v.relabel r).hasError = v.hasError := by
  simp [hasError, r.hasError_element]

@[simp] theorem isNode_relabel : (v.relabel r).isNode = v.isNode := by
  simp [isNode, r.isNode_element]

/-- A relabelled view has the same number of slots. -/
@[simp] theorem slotCount_relabel : (v.relabel r).slotCount = v.slotCount := by
  simp [slotCount, r.slots_element]

/-- Markers stay markers. -/
@[simp] theorem isMarker_relabel : (v.relabel r).isMarker = v.isMarker := by simp [isMarker]

/-- The slots of a relabelled view are the relabelled slots, each at its new place. -/
theorem placeSlots_relabel (parent : View) (index offset : Nat) (slots : List Slot) :
    placeSlots (parent.relabel r) index (r.place offset) (r.slots slots) =
      (placeSlots parent index offset slots).map (Option.map (relabel r)) := by
  induction slots generalizing index offset with
  | nil => rfl
  | cons slot rest ih =>
    cases slot with
    | none =>
      have hrest := ih (index + 1) offset
      simpa [Relabelling.slots, placeSlots] using hrest
    | some g =>
      have hrest := ih (index + 1) (offset + g.width)
      rw [r.place_add] at hrest
      simpa [Relabelling.slots, placeSlots, relabel] using hrest

/-- The children of a relabelled view are the relabelled children. -/
theorem children_relabel : (v.relabel r).children = v.children.map (relabel r) := by
  rw [children, children, slots, slots, green_relabel, offset_relabel, r.slots_element,
    ← Relabelling.slots, placeSlots_relabel, List.filterMap_map, List.map_filterMap]
  rfl

/-- Looking into a slot by its number gives the relabelled child, or fails as before. -/
theorem slotAt_relabel (index : Nat) :
    (v.relabel r).slotAt index = (v.slotAt index).map (Option.map (relabel r)) := by
  have hslots : (v.relabel r).green.slots = r.slots v.green.slots := by
    rw [green_relabel, r.slots_element, Relabelling.slots]
  have hget : (r.slots v.green.slots)[index]? =
      v.green.slots[index]?.map (Option.map r.element) := List.getElem?_map
  unfold slotAt Green.slot Green.slotOffset
  rw [hslots, hget, Relabelling.slots, List.length_map, ← List.map_take, ← Relabelling.slots,
    offset_relabel]
  rcases hslot : v.green.slots[index]? with _ | _ | g
  · rfl
  · rfl
  · obtain ⟨hlt, -⟩ := List.getElem?_eq_some_iff.mp hslot
    have hplace := r.place_slotsWidth v.offset (v.green.slots.take index)
    simp only [Option.map_some, Nat.le_of_lt hlt, if_true, bind, Except.bind, pure, Except.pure,
      Except.map, relabel, hplace]

/-- What stands in a slot of a relabelled view is the relabelled child. -/
theorem slot?_relabel (index : Nat) :
    (v.relabel r).slot? index = (v.slot? index).map (relabel r) := by
  rw [slot?, slot?, slotAt_relabel]
  cases v.slotAt index <;> rfl

/-- A path leads to the same place in a relabelled tree. -/
theorem descend?_relabel (path : List Nat) :
    (v.relabel r).descend? path = (v.descend? path).map (relabel r) := by
  induction path generalizing v with
  | nil => rfl
  | cons index path ih =>
    rw [descend?, descend?, slot?_relabel]
    cases v.slot? index with
    | none => rfl
    | some c => exact ih c

/-- Looking for a token by its number gives the relabelled token, or fails as before. -/
theorem tokenAt_relabel (index : Nat) :
    (v.relabel r).tokenAt index = (v.tokenAt index).map (Option.map (relabel r)) := by
  rw [tokenAt, tokenAt, slotAt_relabel]
  rcases v.slotAt index with fault | _ | c
  · rfl
  · rfl
  · have hfilter : (some (c.relabel r)).filter (fun d => !d.isNode) =
        ((some c).filter fun d => !d.isNode).map (relabel r) := by
      cases hnode : c.isNode <;> simp [Option.filter, hnode]
    exact congrArg Except.ok hfilter

/-- A filter that relabelling does not change keeps the relabelled views. -/
theorem filter_relabel {keeps : View → Bool} (h : ∀ d : View, keeps (d.relabel r) = keeps d)
    (l : List View) : (l.map (relabel r)).filter keeps = (l.filter keeps).map (relabel r) := by
  rw [List.filter_map]
  exact congrArg _ (List.filter_congr fun d _ => h d)

section

variable {closed : View → Bool}

mutual
/-- A traversal enters the same places of a relabelled tree. -/
theorem entriesAt_relabel (hclosed : ∀ d : View, closed (d.relabel r) = closed d) (v : View) :
    ∀ g : Green, entriesAt closed (v.relabel r) (r.element g) =
      (entriesAt closed v g).map (relabel r)
  | .token t => by
    have hnode := r.isNode_element (.token t)
    cases hg : r.element (.token t) with
    | token t' => rfl
    | node head slots => cases hg ▸ hnode
  | .node head slots => by
    have hnode := r.isNode_element (.node head slots)
    have hslots := r.slots_element (.node head slots)
    cases hg : r.element (.node head slots) with
    | token t => cases hg ▸ hnode
    | node head' slots' =>
      obtain rfl : slots' = r.slots slots := (congrArg Green.slots hg).symm.trans hslots
      rw [entriesAt, entriesAt, offset_relabel, hclosed, entriesIn_relabel hclosed v 0 _ slots]
      split <;> rfl
/-- A traversal of relabelled slots meets the relabelled views, in order. -/
theorem entriesIn_relabel (hclosed : ∀ d : View, closed (d.relabel r) = closed d) (parent : View)
    (index offset : Nat) : ∀ slots : List Slot,
    entriesIn closed (parent.relabel r) index (r.place offset) (r.slots slots) =
      (entriesIn closed parent index offset slots).map (relabel r)
  | [] => rfl
  | none :: rest => entriesIn_relabel hclosed parent (index + 1) offset rest
  | some g :: rest => by
    have hentries := entriesAt_relabel hclosed (child parent index offset g) g
    have hrest := entriesIn_relabel hclosed parent (index + 1) (offset + g.width) rest
    rw [r.place_add] at hrest
    rw [entriesIn, List.map_append, ← hentries, ← hrest]
    rfl
end

end

/-- What stands below a relabelled view is the relabelled rest of the tree. -/
theorem descendants_relabel : (v.relabel r).descendants = v.descendants.map (relabel r) := by
  rw [descendants_eq, descendants_eq, green_relabel, entriesAt_relabel r (fun _ => rfl) v]

/-- The nodes below a relabelled view are the relabelled nodes. -/
theorem nodes_relabel : (v.relabel r).nodes = v.nodes.map (relabel r) := by
  rw [nodes, nodes, descendants_relabel, filter_relabel r (by simp)]

/-- The tokens below a relabelled view are the relabelled tokens. -/
theorem tokens_relabel : (v.relabel r).tokens = v.tokens.map (relabel r) := by
  rw [tokens, tokens, descendants_relabel, filter_relabel r (by simp)]

/-- The outermost markers are found by a traversal that does not go into parts without errors, nor
into markers. -/
theorem markers_eq :
    v.markers =
      ((entriesAt (fun d => !d.hasError || d.isMarker) v v.green).filter isNode).flatMap
        markersAt := by
  rw [markers, Walk.run_ofView ⟨fun _ => rfl, fun _ => rfl⟩, filterMap_visitsAt]

/-- The outermost markers of a relabelled view are the relabelled markers. -/
theorem markersAt_relabel : (v.relabel r).markersAt = v.markersAt.map (relabel r) := by
  rw [markersAt, markersAt, hasError_relabel, isMarker_relabel, children_relabel,
    filter_relabel r (by simp)]
  split
  · rfl
  · split <;> rfl

/-- The markers of a relabelled tree are where those of the tree are. -/
theorem markers_relabel : (v.relabel r).markers = v.markers.map (relabel r) := by
  rw [markers_eq, markers_eq, green_relabel, entriesAt_relabel r (by simp),
    filter_relabel r (by simp), List.flatMap_map, List.map_flatMap]
  simp only [markersAt_relabel]

end View

end Verbatim
