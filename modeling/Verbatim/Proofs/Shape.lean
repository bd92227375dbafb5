import Verbatim.Proofs.Building
import Verbatim.Proofs.Outline
import Verbatim.Proofs.Relabelling

/-!
# The shape of a tree

The shape of a tree is the tree without identities, texts and widths. Whatever does not look at
these commutes with taking the shape: following a path, the traversal of a tree, and the search for
markers. The shape of what is built from a sketch can be read off the sketch with bare tokens.
-/

namespace Verbatim

namespace Green

mutual
/-- The element without identities, texts and widths. -/
def shape : Green → Green
  | token t => token ⟨default, t.data.kind, t.data.presence, "", [], []⟩
  | node head slots =>
    node ⟨default, head.kind, head.presence, 0, head.hasError⟩ (shapeSlots slots)
/-- The shapes of what stands in some slots. -/
def shapeSlots : List Slot → List Slot
  | [] => []
  | none :: rest => none :: shapeSlots rest
  | some g :: rest => some g.shape :: shapeSlots rest
end

/-- The shapes of some slots are the shapes of what they hold. -/
theorem shapeSlots_eq (slots : List Slot) : shapeSlots slots = slots.map (Option.map shape) := by
  induction slots with
  | nil => rfl
  | cons slot rest ih => cases slot <;> simp [shapeSlots, ih]

/-- A shape keeps the kinds. -/
@[simp] theorem kind_shape (g : Green) : g.shape.kind = g.kind := by cases g <;> rfl

@[simp] theorem presence_shape (g : Green) : g.shape.presence = g.presence := by cases g <;> rfl

@[simp] theorem hasError_shape (g : Green) : g.shape.hasError = g.hasError := by cases g <;> rfl

@[simp] theorem isNode_shape (g : Green) : g.shape.isNode = g.isNode := by cases g <;> rfl

/-- A shape is of no width. -/
@[simp] theorem width_shape (g : Green) : g.shape.width = 0 := by cases g <;> rfl

/-- The slots of a shape hold the shapes of what the slots held. -/
theorem slots_shape (g : Green) : g.shape.slots = shapeSlots g.slots := by cases g <;> rfl

/-- Errors can be seen from the shapes of slots. -/
theorem errorOf_shapeSlots (kind : Kind) (presence : Presence) (slots : List Slot) :
    errorOf kind presence (shapeSlots slots) = errorOf kind presence slots := by
  have hany : ((shapeSlots slots).any fun slot => slot.any hasError) =
      slots.any fun slot => slot.any hasError := by
    induction slots with
    | nil => rfl
    | cons slot rest ih => cases slot <;> simp [shapeSlots, ih]
  rw [errorOf, errorOf, hany]

end Green

namespace Sketch

mutual
/-- The shape of what a slot shows. -/
def shape : Sketch → Slot
  | token t => some (.token ⟨default, t.kind, .present, "", [], []⟩)
  | missing kind =>
    if kind.isToken then some (.token ⟨default, kind, .missing, "", [], []⟩)
    else some (.node ⟨default, kind, .missing, 0, true⟩
      (List.replicate kind.slotSpecs.length none))
  | absent => none
  | node kind _ slots =>
    some (.node ⟨default, kind, .present, 0, Green.errorOf kind .present (shapes slots)⟩
      (shapes slots))
/-- The shapes of what some slots show. -/
def shapes : List Sketch → List Slot
  | [] => []
  | s :: rest => s.shape :: shapes rest
end

/-- The shape of a sketch does not depend on more than the kinds of its tokens. -/
theorem shape_bare (s : Sketch) : s.bare.shape = s.shape := by
  induction s using Sketch.induct with
  | token t | missing kind | absent => rfl
  | node kind late slots ih =>
    have hslots : shapes (bareAll slots) = shapes slots := by
      induction slots with
      | nil => rfl
      | cons s rest ihrest =>
        rw [bareAll, shapes, shapes, ih s List.mem_cons_self,
          ihrest fun t ht => ih t (List.mem_cons_of_mem _ ht)]
    rw [bare, shape, shape, hslots]

/-- Slots that were built have the shapes that their sketches show. -/
theorem BuiltAll.shape_eq {slots : List Sketch} {built : List Slot} (h : BuiltAll slots built)
    (hslots : ∀ s ∈ slots, ∀ slot, s.Built slot → slot.map Green.shape = s.shape) :
    Green.shapeSlots built = shapes slots := by
  induction slots generalizing built with
  | nil =>
    obtain rfl := h
    rfl
  | cons s slots ih =>
    obtain ⟨slot, rest, rfl, hs, hrest⟩ := h
    have htail := ih hrest fun t ht => hslots t (List.mem_cons_of_mem _ ht)
    rw [Green.shapeSlots_eq] at htail ⊢
    rw [shapes, List.map_cons, hslots s List.mem_cons_self slot hs, htail]

/-- What was built has the shape that its sketch shows. -/
theorem Built.shape_eq {s : Sketch} {slot : Slot} (h : s.Built slot) :
    slot.map Green.shape = s.shape := by
  induction s using Sketch.induct generalizing slot with
  | token t =>
    obtain ⟨g, rfl, hg⟩ := h
    simp [Green.shape, hg, Token.stored, shape]
  | missing kind =>
    simp only [Built] at h
    split at h
    · next hkind =>
      obtain ⟨g, rfl, hg⟩ := h
      simp [Green.shape, hg, shape, hkind]
    · next hkind =>
      obtain ⟨id, rfl⟩ := h
      simp [Green.shape, Green.shapeSlots_eq, shape, hkind]
  | absent =>
    obtain rfl := h
    rfl
  | node kind late slots ih =>
    obtain ⟨id, built, rfl, hbuilt⟩ := h
    have hshapes := hbuilt.shape_eq fun s hs slot => ih s hs
    rw [shape, ← hshapes, Green.errorOf_shapeSlots]
    rfl

/-- What was built from sketches that agree up to the kinds of their tokens has the same shape. -/
theorem Built.shape_congr {s t : Sketch} {g h : Green} (hs : s.Built (some g))
    (ht : t.Built (some h)) (hbare : s.bare = t.bare) : g.shape = h.shape := by
  have hshape : s.shape = t.shape := by rw [← shape_bare s, hbare, shape_bare]
  rw [← hs.shape_eq, ← ht.shape_eq] at hshape
  exact Option.some.inj hshape

end Sketch

namespace View

/-- The view with the shapes of the element and of everything around it. -/
def shape : View → View
  | root _ g => root 0 g.shape
  | child parent index _ g => child parent.shape index 0 g.shape

end View

/-- Taking the shape, which leaves nothing of the widths. -/
def Relabelling.shape : Relabelling where
  element := Green.shape
  place _ := 0
  kind_element := Green.kind_shape
  presence_element := Green.presence_shape
  hasError_element := Green.hasError_shape
  isNode_element := Green.isNode_shape
  slots_element g := (Green.slots_shape g).trans (Green.shapeSlots_eq g.slots)
  place_zero := rfl
  place_add _ g := by rw [g.width_shape]

namespace View

/-- Taking the shape of a view is a relabelling. -/
theorem relabel_shape : relabel .shape = shape := by
  funext v
  induction v with
  | root store g => rfl
  | child parent index offset g ih =>
    rw [relabel, ih]
    rfl

@[simp] theorem green_shape (v : View) : v.shape.green = v.green.shape := by cases v <;> rfl

/-- In a shape everything stands at the start. -/
@[simp] theorem offset_shape (v : View) : v.shape.offset = 0 := by cases v <;> rfl

@[simp] theorem parent?_shape (v : View) : v.shape.parent? = v.parent?.map shape := by
  cases v <;> rfl

@[simp] theorem index?_shape (v : View) : v.shape.index? = v.index? := by cases v <;> rfl

/-- A path leads to the same place of a shape. -/
@[simp] theorem path_shape (v : View) : v.shape.path = v.path := by
  rw [← relabel_shape, path_relabel]

@[simp] theorem kind_shape (v : View) : v.shape.kind = v.kind := by simp [kind]

@[simp] theorem presence_shape (v : View) : v.shape.presence = v.presence := by simp [presence]

@[simp] theorem isMissing_shape (v : View) : v.shape.isMissing = v.isMissing := by
  simp [isMissing, Green.isMissing]

@[simp] theorem isNode_shape (v : View) : v.shape.isNode = v.isNode := by simp [isNode]

/-- A path leads to the same place in the shape of a tree. -/
theorem descend?_shape (v : View) (path : List Nat) :
    v.shape.descend? path = (v.descend? path).map shape := by
  simpa only [relabel_shape] using descend?_relabel .shape v path

/-- Looking for a token by its number finds the shape of the one that is found in the tree. -/
theorem tokenAt_shape (v : View) (index : Nat) :
    v.shape.tokenAt index = (v.tokenAt index).map (Option.map shape) := by
  simpa only [relabel_shape] using tokenAt_relabel .shape v index

/-- The tokens of a shape are the shapes of the tokens. -/
theorem tokens_shape (v : View) : v.shape.tokens = v.tokens.map shape := by
  simpa only [relabel_shape] using tokens_relabel .shape v

/-- The markers of a tree are where those of its shape are. -/
theorem markers_shape (v : View) : v.shape.markers = v.markers.map shape := by
  simpa only [relabel_shape] using markers_relabel .shape v

end View

end Verbatim
