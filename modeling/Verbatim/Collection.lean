import Verbatim.Edit
import Verbatim.View.Children

/-!
# Collections

A node of a collection kind is read and edited like a list of its members. A place in a collection
remembers the offset of its member, so that moving by one member does not sum widths again.
-/

namespace Verbatim

/-- A node that repeats members. -/
structure Collection where
  /-- The node itself. -/
  view : View

/-- A place in a collection: before one of its members, or at its end. -/
structure Place where
  /-- Number of members before the place. -/
  index : Nat
  /-- Byte offset of the place. -/
  offset : Nat
  deriving DecidableEq, Repr

/-- Places are compared by index first. -/
def Place.compare (a b : Place) : Ordering :=
  (Ord.compare a.index b.index).then (Ord.compare a.offset b.offset)

namespace Collection

/-- A view as a collection, if its kind is one. -/
def ofView? (v : View) : Option Collection := if v.kind.isCollection then some ⟨v⟩ else none

/-- The kinds of members it may have. -/
def memberKinds (c : Collection) : KindSet := c.view.kind.layout.members?.getD .empty

/-- Number of members. -/
def length (c : Collection) : Nat := c.view.slotCount

/-- Whether there are no members. -/
def isEmpty (c : Collection) : Bool := c.length == 0

/-- The member at an index, if there is one. -/
def get? (c : Collection) (index : Nat) : Option View := c.view.slot? index

/-- The first member. -/
def first? (c : Collection) : Option View := c.get? 0

/-- The last member. -/
def last? (c : Collection) : Option View :=
  if c.length = 0 then none else c.get? (c.length - 1)

/-- The place before the first member. -/
def startPlace (c : Collection) : Place := ⟨0, c.view.offset⟩

/-- The place after the last member. -/
def endPlace (c : Collection) : Place := ⟨c.length, c.view.span.stop⟩

/-- The green element of the member at an index. -/
def memberAt (c : Collection) (index : Nat) : Except Fault Green := do
  match ← c.view.green.slot index with
  | some member => return member
  | none => throw (.absentMember c.view.kind index)

/-- The place after the member at a place. -/
def placeAfter (c : Collection) (p : Place) : Except Fault Place := do
  unless p.index < c.length do throw .pastEnd
  let member ← c.memberAt p.index
  return ⟨p.index + 1, p.offset + member.width⟩

/-- The place before the member that ends at a place. -/
def placeBefore (c : Collection) (p : Place) : Except Fault Place := do
  unless 0 < p.index do throw .beforeStart
  let member ← c.memberAt (p.index - 1)
  return ⟨p.index - 1, p.offset - member.width⟩

/-- The member at a place. -/
def getAt (c : Collection) (p : Place) : Except Fault View := do
  return .child c.view p.index p.offset (← c.memberAt p.index)

/-- Replaces the members from `start` to `stop`. -/
def splice (c : Collection) (start stop : Nat) (element : Option Green) : Alloc Collection := do
  let green ← c.view.green.spliceSlots start stop (element.toList.map some)
  return ⟨← c.view.replaceWith green⟩

/-- Adds a member at the end. -/
def appending (c : Collection) (element : Green) : Alloc Collection :=
  c.splice c.length c.length (some element)

/-- Adds a member at the start. -/
def prepending (c : Collection) (element : Green) : Alloc Collection := c.splice 0 0 (some element)

/-- Adds a member so that it ends up at an index. -/
def inserting (c : Collection) (index : Nat) (element : Green) : Alloc Collection :=
  c.splice index index (some element)

/-- Removes the member at an index. -/
def removing (c : Collection) (index : Nat) : Alloc Collection := do
  unless index < c.length do throw (.memberOutOfRange index c.length)
  c.splice index (index + 1) none

/-- Replaces the member at an index. -/
def replacing (c : Collection) (index : Nat) (element : Green) : Alloc Collection := do
  unless index < c.length do throw (.memberOutOfRange index c.length)
  c.splice index (index + 1) (some element)

end Collection

/-- The members of a collection that have not been taken yet. -/
structure Members where
  /-- The children not taken yet. -/
  children : Children
  /-- The number of members that are left. -/
  remaining : Nat

namespace Members

/-- All members of a collection. -/
def ofCollection (c : Collection) : Members := ⟨.ofView c.view, c.length⟩

/-- Counts a member as taken, if there was one. -/
def counted (m : Members) : Option View × Children → Option View × Members
  | (some v, children) => (some v, ⟨children, m.remaining - 1⟩)
  | (none, children) => (none, ⟨children, m.remaining⟩)

/-- Takes the first member that is left. -/
def next (m : Members) : Option View × Members := m.counted m.children.next

/-- Takes the last member that is left. -/
def nextBack (m : Members) : Option View × Members := m.counted m.children.nextBack

end Members

namespace Collection

/-- The members, first to last. -/
def members (c : Collection) : List View := c.view.children

/-- The members, last to first. -/
def membersBack (c : Collection) : List View := c.view.childrenBack

end Collection

end Verbatim
