import Verbatim.Builder

/-!
# Builders with one row of slots

The slots of all open nodes can be kept in one row. An open node then only remembers where in the
row its slots start. To close a node takes it off the open nodes first, and its slots out of the row
next; what was done before something fails stays done.
-/

namespace Verbatim

/-- A tree under construction, with all its slots in one row. -/
structure RowBuilder where
  /-- The open nodes, innermost first, each with the number of slots in the row before it. -/
  opened : List (Kind × Nat) := []
  /-- The slots that are filled, in order. -/
  row : List Slot := []

namespace RowBuilder

/-- Something done with a builder for a store. It may fail, and keeps what it did to both. -/
abbrev Act := ExceptT Fault (StateT RowBuilder (StateM Store))

/-- Lets the store act. -/
def inStore {α : Type} (act : Alloc α) : Act α :=
  fun b s =>
    let (outcome, s) := act s
    ((outcome, b), s)

/-- Opens a node. -/
def start (kind : Kind) : Act Unit := do
  unless kind.isNode do throw (.notNodeKind kind)
  modify fun b => { b with opened := (kind, b.row.length) :: b.opened }

/-- Puts something into the next slot. -/
def fill (slot : Slot) : Act Unit := modify fun b => { b with row := b.row ++ [slot] }

/-- What is wrong with the number of slots of a node, if anything is. -/
def slotFault? (kind : Kind) (count : Nat) : Option Fault :=
  match kind.layout with
  | .fixed specs =>
    if count = specs.length then none else some (.slotCount kind count specs.length)
  | .token | .collection _ => none

/-- Takes the innermost open node off the open ones, and then its slots out of the row. There must
be exactly the slots that the layout of the node declares. -/
def takeNode (b : RowBuilder) : Except Fault (Kind × List Slot) × RowBuilder :=
  match b.opened with
  | [] => (.error .noOpenNode, b)
  | (kind, first) :: opened =>
    if b.row.length < first then (.error .positionUnderflow, { b with opened })
    else
      match slotFault? kind (b.row.length - first) with
      | some fault => (.error fault, { b with opened })
      | none => (.ok (kind, b.row.drop first), ⟨opened, b.row.take first⟩)

/-- Closes the innermost open node. -/
def finishNode : Act Unit := do
  let (kind, slots) ← ofExcept (← modifyGet takeNode)
  fill (some (← inStore (Alloc.makeNode kind slots)))

/-- Takes one step. -/
def step : BuildStep → Act Unit
  | .start kind => start kind
  | .finish => finishNode
  | .token kind text leading trailing => do
    let t ← inStore (Alloc.makeToken ⟨kind, .present, text, leading, trailing⟩)
    fill (some (.token t))
  | .missing kind => do fill (some (← inStore (Alloc.missing kind)))
  | .absent => fill none

/-- The finished tree: nothing may be open, and exactly one node must have been built. -/
def root (b : RowBuilder) : Except Fault Green :=
  if b.opened.isEmpty then
    match b.row with
    | [some (.node head slots)] => .ok (.node head slots)
    | [_] => .error .rootNotNode
    | row => .error (.rootCount row.length)
  else .error (.unfinished b.opened.reverse)

/-- Builds a tree from all its steps. -/
def run (steps : List BuildStep) : Alloc Green := fun s =>
  match steps.forM step {} s with
  | ((.ok (), b), s) => (b.root, s)
  | ((.error fault, _), s) => (.error fault, s)

end RowBuilder

end Verbatim
