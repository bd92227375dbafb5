import Verbatim.Green
import Verbatim.Layout
import Verbatim.Text.Span

/-!
# Views

A view is a green element together with its place: the offset at which it stands and the way down to
it from the root of its tree. Views are made by walking down from a root, so a view always knows its
ancestors. The root remembers which store its tree was made for.
-/

namespace Verbatim

/-- A green element in its place. -/
inductive View where
  /-- The root of a tree made for a store. -/
  | root (store : Nat) (green : Green)
  /-- What stands in slot `index` of another view, at a byte offset from the start of the tree. -/
  | child (parent : View) (index offset : Nat) (green : Green)
  deriving Inhabited

namespace View

/-- The element itself. -/
def green : View → Green
  | root _ green => green
  | child _ _ _ green => green

/-- Byte offset of the element from the start of its tree. -/
def offset : View → Nat
  | root .. => 0
  | child _ _ offset _ => offset

/-- The view this one was reached from. -/
def parent? : View → Option View
  | root .. => none
  | child parent .. => some parent

/-- The slot of the parent this view stands in. -/
def index? : View → Option Nat
  | root .. => none
  | child _ index _ _ => some index

/-- What the element is. -/
def kind (v : View) : Kind := v.green.kind

/-- Whether the element was read or stands in. -/
def presence (v : View) : Presence := v.green.presence

/-- Whether the element stands in for one that is required. -/
def isMissing (v : View) : Bool := v.green.isMissing

/-- Whether the element or something below it is missing or unexpected. -/
def hasError (v : View) : Bool := v.green.hasError

/-- Whether the element is a node. -/
def isNode (v : View) : Bool := v.green.isNode

/-- Number of bytes of the element's text. -/
def width (v : View) : Nat := v.green.width

/-- Number of slots of the element. -/
def slotCount (v : View) : Nat := v.green.slots.length

/-- Where the element stands, trivia included. -/
def span (v : View) : Text.Span := .ofWidth v.offset v.width

/-- The text of the element. -/
def text (v : View) : String := v.green.text

/-- The view and all its ancestors, innermost first. -/
def ancestors : View → List View
  | root store green => [root store green]
  | child parent index offset green => child parent index offset green :: ancestors parent

/-- The root of the tree. -/
def top : View → View
  | root store green => root store green
  | child parent .. => top parent

/-- The store the tree was made for. -/
def store : View → Nat
  | root store _ => store
  | child parent .. => store parent

/-- Number of ancestors above the view. -/
def depth : View → Nat
  | root .. => 0
  | child parent .. => depth parent + 1

/-- The slot indices on the way down from the root. -/
def path : View → List Nat
  | root .. => []
  | child parent index _ _ => path parent ++ [index]

/-- Whether two views show the same element in the same place of the same tree. -/
def same : View → View → Bool
  | root s g, root s' g' => g.same g' && s == s'
  | child p i o g, child p' i' o' g' => g.same g' && o == o' && i == i' && same p p'
  | _, _ => false

/-- Whether two views show the same element at the same offset. -/
def sameSpot (a b : View) : Bool := a.green.same b.green && a.offset == b.offset

/-- What stands in slot `index`, placed after the widths of the slots before it. -/
def slotAt (v : View) (index : Nat) : Except Fault (Option View) := do
  match ← v.green.slot index with
  | none => return none
  | some g => return some (.child v index (v.offset + (← v.green.slotOffset index)) g)

/-- Places slots one after another, the first of them at `index` and `offset`. -/
def placeSlots (parent : View) : Nat → Nat → List Slot → List (Option View)
  | _, _, [] => []
  | index, offset, none :: rest => none :: placeSlots parent (index + 1) offset rest
  | index, offset, some g :: rest =>
    some (.child parent index offset g) :: placeSlots parent (index + 1) (offset + g.width) rest

/-- Every slot of the element in its place, empty ones as `none`. -/
def slots (v : View) : List (Option View) := placeSlots v 0 v.offset v.green.slots

/-- What stands in slot `index`; nothing if there is no such slot. -/
def slot? (v : View) (index : Nat) : Option View :=
  match v.slotAt index with
  | .ok slot => slot
  | .error _ => none

/-- The node in slot `index`, if there is one. -/
def node? (v : View) (index : Nat) : Option View := (v.slot? index).filter isNode

/-- The token in slot `index`, if there is one. -/
def token? (v : View) (index : Nat) : Option View := (v.slot? index).filter fun c => !c.isNode

/-- Follows slot indices downwards. -/
def descend? (v : View) : List Nat → Option View
  | [] => some v
  | index :: path => (v.slot? index).bind fun c => c.descend? path

/-- The label of a slot: the name of its field, or its number in brackets. -/
def slotLabel (kind : Kind) (index : Nat) : String :=
  match kind.slotSpecs[index]? with
  | some spec => spec.label
  | none => s!"[{index}]"

/-- Every slot with its label, for tools that do not know the grammar. -/
def labelledSlots (v : View) : List (String × Option View) :=
  v.slots.zipIdx.map fun (slot, index) => (slotLabel v.kind index, slot)

/-- Kind and span of a view, as they are written in dumps. -/
def render (v : View) : String := s!"{v.kind.name}@{v.span.render}"

/-- Kind and span of a view, and whether it stands in. -/
def brief (v : View) : String := if v.isMissing then v.render ++ " missing" else v.render

/-- What stands in a slot is placed after everything in the slots before it. -/
theorem slot?_eq (v : View) (index : Nat) :
    v.slot? index = (v.green.slots[index]?.join).map fun g =>
      .child v index (v.offset + Green.slotsWidth (v.green.slots.take index)) g := by
  unfold slot? slotAt Green.slot
  cases hslot : v.green.slots[index]? with
  | none => rfl
  | some slot =>
    have hle : index ≤ v.green.slots.length :=
      Nat.le_of_lt (List.getElem?_eq_some_iff.mp hslot).1
    cases slot with
    | none => rfl
    | some g =>
      simp only [Green.slotOffset, if_pos hle]
      rfl

/-- Every placed slot holds an element of the slots it was placed from. -/
theorem green_mem_of_mem_placeSlots {parent c : View} {index offset : Nat} {slots : List Slot}
    (h : some c ∈ placeSlots parent index offset slots) : some c.green ∈ slots := by
  induction slots generalizing index offset with
  | nil => cases h
  | cons s rest ih =>
    cases s with
    | none =>
      simp only [placeSlots, List.mem_cons, reduceCtorEq, false_or] at h
      exact List.mem_cons_of_mem _ (ih h)
    | some g =>
      simp only [placeSlots, List.mem_cons, Option.some.injEq] at h
      rcases h with rfl | h
      · exact List.mem_cons_self
      · exact List.mem_cons_of_mem _ (ih h)

/-- What stands in a slot is smaller than the element that holds it. -/
theorem size_lt_of_mem_slots {v c : View} (h : some c ∈ v.slots) : c.green.size < v.green.size :=
  Green.size_lt_of_mem_slots (green_mem_of_mem_placeSlots h)

end View

end Verbatim
