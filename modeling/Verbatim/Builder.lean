import Verbatim.Store

/-!
# Building trees from steps

A builder assembles one tree from a flat stream of steps. Every slot of a node is one step or a
nested run of steps: a token, a placeholder, an empty slot, or a node between its start and finish.
-/

namespace Verbatim

/-- One step in building a tree. -/
inductive BuildStep where
  /-- Opens a node. -/
  | start (kind : Kind)
  /-- Closes the innermost open node. -/
  | finish
  /-- Fills the next slot with a present token whose text includes its trivia. -/
  | token (kind : Kind) (text : String) (leading trailing : List TriviaPiece)
  /-- Fills the next slot with a placeholder. -/
  | missing (kind : Kind)
  /-- Leaves the next slot empty. -/
  | absent
  deriving DecidableEq, Repr

/-- A tree under construction. -/
structure Builder where
  /-- The open nodes, innermost first, each with the slots that stood before it, last first. -/
  opened : List (Kind × List Slot) := []
  /-- The slots filled since the innermost node was opened, last first. -/
  filled : List Slot := []
  deriving Inhabited

namespace Builder

/-- All slots that are filled, those of the innermost node first. -/
def slots (b : Builder) : List Slot := b.filled ++ b.opened.flatMap (·.2)

/-- The elements that stand in the slots. -/
def elements (b : Builder) : List Green := b.slots.filterMap fun slot => slot

/-- The open nodes, outermost first, each with the number of slots filled before it was opened. -/
def openedAfter (b : Builder) : List (Kind × Nat) :=
  (b.opened.reverse.foldl
    (fun (before, positions) (kind, slots) =>
      (before + slots.length, (kind, before + slots.length) :: positions))
    (0, [])).2.reverse

/-- Opens a node. -/
def start (b : Builder) (kind : Kind) : Except Fault Builder :=
  if kind.isNode then .ok ⟨(kind, b.filled) :: b.opened, []⟩ else .error (.notNodeKind kind)

/-- Puts something into the next slot. -/
def fill (b : Builder) (slot : Slot) : Builder := { b with filled := slot :: b.filled }

/-- Closes the innermost open node, which must have exactly the slots its layout declares. -/
def finishNode (b : Builder) : Alloc Builder := do
  match b.opened with
  | [] => throw .noOpenNode
  | (kind, before) :: opened =>
    if let .fixed specs := kind.layout then
      unless b.filled.length = specs.length do
        throw (.slotCount kind b.filled.length specs.length)
    let node ← Alloc.makeNode kind b.filled.reverse
    return ⟨opened, some node :: before⟩

/-- Takes one step. -/
def step (b : Builder) : BuildStep → Alloc Builder
  | .start kind => ofExcept (b.start kind)
  | .finish => b.finishNode
  | .token kind text leading trailing => do
    let t ← Alloc.makeToken ⟨kind, .present, text, leading, trailing⟩
    return b.fill (some (.token t))
  | .missing kind => do return b.fill (some (← Alloc.missing kind))
  | .absent => return b.fill none

/-- The finished tree: nothing may be open, and exactly one node must have been built. -/
def root (b : Builder) : Except Fault Green :=
  if b.opened.isEmpty then
    match b.filled with
    | [some (.node head slots)] => .ok (.node head slots)
    | [_] => .error .rootNotNode
    | filled => .error (.rootCount filled.length)
  else .error (.unfinished b.openedAfter)

/-- Gives a builder up, which is a fault as long as nodes are open. -/
def abandon (b : Builder) : Except Fault Unit :=
  if b.opened.isEmpty then .ok () else .error .abandoned

/-- Takes steps until one fails; tells how many were completed. -/
def feed (b : Builder) (completed : Nat) :
    List BuildStep → StateM Store (Nat × Except Fault Builder)
  | [] => return (completed, .ok b)
  | s :: steps => do
    match ← (b.step s).run with
    | .ok b => b.feed (completed + 1) steps
    | .error fault => return (completed, .error fault)

/-- Builds a tree from all its steps. -/
def run (steps : List BuildStep) : Alloc Green := do
  let b ← steps.foldlM step {}
  ofExcept b.root

end Builder

end Verbatim
