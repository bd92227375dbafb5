import Verbatim.View.Walk

/-!
# Validation

A tree is valid when every node of it follows the layout of its kind. Validation looks at every
node, parents before children, and reports the first violation.
-/

namespace Verbatim

/-- A way in which a node breaks the layout of its kind. -/
inductive Violation where
  /-- The node has a number of slots other than its layout declares. -/
  | arity (kind : Kind) (span : Text.Span) (expected found : Nat)
  /-- A required slot of a present node is empty. -/
  | absentRequiredSlot (kind : Kind) (label : String) (span : Text.Span)
  /-- A slot holds an element of a kind it does not accept. -/
  | unexpectedSlotKind (kind : Kind) (label : String) (found : Kind) (span : Text.Span)
  /-- A collection holds a member of a kind it does not repeat. -/
  | unexpectedMember (kind : Kind) (index : Nat) (found : Kind) (span : Text.Span)
  /-- A collection has an empty slot. -/
  | absentMember (kind : Kind) (index : Nat) (span : Text.Span)
  /-- A placeholder has text. -/
  | missingWithText (kind : Kind) (span : Text.Span)
  /-- The remembered width is not the sum of the widths of the children. -/
  | widthMismatch (kind : Kind) (span : Text.Span) (remembered actual : Nat)
  deriving DecidableEq, Repr

namespace Violation

/-- The written name of the sort of violation. -/
def name : Violation → String
  | arity .. => "Arity"
  | absentRequiredSlot .. => "AbsentRequiredSlot"
  | unexpectedSlotKind .. => "UnexpectedSlotKind"
  | unexpectedMember .. => "UnexpectedMember"
  | absentMember .. => "AbsentMember"
  | missingWithText .. => "MissingWithText"
  | widthMismatch .. => "WidthMismatch"

/-- What a reader is told about a violation. -/
def message : Violation → String
  | arity kind span expected found =>
    s!"{kind.name}@{span.render} has {found} slots but its layout declares {expected}"
  | absentRequiredSlot kind label span =>
    s!"required slot `{label}` of {kind.name}@{span.render} is absent"
  | unexpectedSlotKind kind label found span =>
    s!"slot `{label}` of {kind.name}@{span.render} holds {found.name}"
  | unexpectedMember kind index found span =>
    s!"{kind.name}@{span.render} holds a {found.name} member at {index}"
  | absentMember kind index span =>
    s!"{kind.name}@{span.render} has an absent member at {index}"
  | missingWithText kind span => s!"missing {kind.name} at {span.render} is not zero-width"
  | widthMismatch kind span remembered actual =>
    s!"{kind.name}@{span.render} has width {remembered} " ++
      s!"but its children add up to {actual}"

end Violation

namespace View

/-- The first violation among the members of a collection, numbered from `index` on. -/
def memberViolation? (v : View) (members : KindSet) (index : Nat) : List Slot → Option Violation
  | [] => none
  | none :: _ => some (.absentMember v.kind index v.span)
  | some g :: rest =>
    if members.contains g.kind then v.memberViolation? members (index + 1) rest
    else some (.unexpectedMember v.kind index g.kind v.span)

/-- The first violation among the slots of a node, each next to what its layout declares. A
placeholder may leave every slot empty. -/
def slotViolation? (v : View) : List (SlotSpec × Slot) → Option Violation
  | [] => none
  | (spec, none) :: rest =>
    if spec.isOptional || v.isMissing then v.slotViolation? rest
    else some (.absentRequiredSlot v.kind spec.label v.span)
  | (spec, some g) :: rest =>
    if spec.accepts.contains g.kind then v.slotViolation? rest
    else some (.unexpectedSlotKind v.kind spec.label g.kind v.span)

/-- The first violation of a node against the layout of its kind. -/
def layoutViolation? (v : View) : Option Violation :=
  match v.kind.layout with
  | .token => none
  | .collection members => v.memberViolation? members 0 v.green.slots
  | .fixed specs =>
    if specs.length = v.slotCount then v.slotViolation? (specs.zip v.green.slots)
    else some (.arity v.kind v.span specs.length v.slotCount)

/-- The first placeholder among the tokens of a node that has text. -/
def tokenViolation? (v : View) : Option Violation :=
  v.children.findSome? fun c =>
    if !c.isNode && c.isMissing && !c.text.isEmpty then some (.missingWithText c.kind c.span)
    else none

/-- The first violation of a node, its own remembered width included. -/
def violation? (v : View) : Option Violation :=
  if Green.slotsWidth v.green.slots ≠ v.width then
    some (.widthMismatch v.kind v.span v.width (Green.slotsWidth v.green.slots))
  else if v.isMissing && !v.span.isEmpty then some (.missingWithText v.kind v.span)
  else v.layoutViolation?.or v.tokenViolation?

/-- The first violation of the tree below a view. -/
def firstViolation? (v : View) : Option Violation := v.nodes.findSome? violation?

/-- Whether every node of the tree follows the layout of its kind. -/
def isValid (v : View) : Bool := v.firstViolation?.isNone

end View

end Verbatim
