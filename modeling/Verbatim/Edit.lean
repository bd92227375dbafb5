import Verbatim.Store
import Verbatim.View

/-!
# Edits

An edit never changes a tree. It makes a new node for the edited one and for each of its ancestors
and uses every other element again. Emptying a required slot puts a placeholder there; emptying a
slot of a collection removes the member.
-/

namespace Verbatim

namespace Green

/-- A node with the slots from `start` to `stop` replaced. A collection only takes members of the
kinds it repeats. -/
def spliceSlots (g : Green) (start stop : Nat) (replacement : List Slot) : Alloc Green := do
  unless start ≤ stop ∧ stop ≤ g.slots.length do
    throw (.rangeOutOfBounds start stop g.kind g.slots.length)
  if let some members := g.kind.layout.members? then
    unless replacement.all (fun slot => slot.any fun e => members.contains e.kind) do
      throw (.memberRefused g.kind members)
  Alloc.allocNode g.kind .present (g.slots.take start ++ replacement ++ g.slots.drop stop)

/-- What goes into a slot: a placeholder if nothing was given and the slot is required. -/
def fillSlot (spec : Option SlotSpec) : Slot → Alloc Slot
  | some e => return some e
  | none =>
    match spec with
    | some spec => if spec.isOptional then return none else some <$> Alloc.missing spec.placeholder
    | none => return none

/-- Puts placeholders into the required slots that are empty. -/
def fillRequired : List SlotSpec → List Slot → Alloc (List Slot)
  | spec :: specs, slot :: slots => do
    let slot ← fillSlot (some spec) slot
    return slot :: (← fillRequired specs slots)
  | _, slots => return slots

/-- A node with one slot replaced. A placeholder that gets a present element becomes a present node,
and its other required slots get placeholders of their own. -/
def replaceSlot (g : Green) (index : Nat) (slot : Slot) : Alloc Green := do
  unless index < g.slots.length do throw (.slotOutOfRange index g.kind g.slots.length)
  if g.kind.layout.members?.isSome then
    g.spliceSlots index (index + 1) (slot.toList.map some)
  else
    let specs := g.kind.slotSpecs
    let slot ← fillSlot specs[index]? slot
    if g.isMissing && slot.any (fun e => !e.isMissing) then
      let slots ← fillRequired specs g.slots
      Alloc.allocNode g.kind .present (slots.set index slot)
    else
      Alloc.allocNode g.kind g.presence (g.slots.set index slot)

end Green

namespace View

/-- Puts another element in the place of a view and makes all ancestors anew; gives the new element
in its place. -/
def replaceWith : View → Green → Alloc View
  | root .., green => return .root (← get).tag green
  | child parent index offset _, green => do
    let parentGreen ← parent.green.replaceSlot index (some green)
    let parent ← parent.replaceWith parentGreen
    return .child parent index offset green

/-- Replaces one slot of a view and makes all ancestors anew; gives the edited node in its place. -/
def replaceSlot (v : View) (index : Nat) (slot : Slot) : Alloc View := do
  v.replaceWith (← v.green.replaceSlot index slot)

end View

end Verbatim
