import Verbatim.Builder
import Verbatim.Token

/-!
# Parser events

A parser writes down what it sees as a list of events. A node can be given a parent after it was
completed: the parent's start event stands later in the list, and the earlier event says how far
ahead it is. Resolving a list of events moves every such parent in front of its first child, which
gives the steps from which the tree is built.
-/

namespace Verbatim

/-- One thing a parser has to say. -/
inductive Event where
  /-- A node starts here; `forward` is the distance to a parent that was added later. -/
  | start (kind : Kind) (forward : Option UInt32)
  /-- A token was consumed. -/
  | token (token : Token)
  /-- A required element is not there; `forward` is as for `start`. -/
  | missing (kind : Kind) (forward : Option UInt32)
  /-- An optional slot is empty. -/
  | absent
  /-- The innermost node ends here. -/
  | finish
  deriving DecidableEq

namespace Event

/-- The start of a node whose kind is not known yet. -/
def unnamed : Event := .start .tombstone none

/-- The step that consumes a token. Its characters, trivia included, are cut out of the text where
the token says that it stands; that fails if there is no such place in the text. -/
def tokenStep (text : String) (t : Token) : Except Fault BuildStep := do
  if t.start < TriviaPiece.total t.leadingPieces then throw .positionUnderflow
  return .token t.kind (← t.fullSpan.cut text) t.leadingPieces t.trailingPieces

/-- Follows the parents that were added to the event at position `here`, given the events after it.
`opened` holds the positions whose nodes are open already. Gives the kinds of the parents, innermost
first, and the positions that are now open. Every parent stands after its child, so there is less of
the list left with each. -/
def parents (here : Nat) (rest : List Event) (opened : List Nat) :
    Option UInt32 → Except Fault (List Kind × List Nat)
  | none => .ok ([], opened)
  | some distance =>
    let target := here + distance.toNat
    if opened.contains target then .ok ([], opened)
    else
      match h : rest.drop (distance.toNat - 1) with
      | .start kind forward :: later => do
        have : later.length < rest.length := by
          have := congrArg List.length h
          simp only [List.length_drop, List.length_cons] at this
          omega
        let (kinds, opened) ← parents target later (target :: opened) forward
        return (if kind = .tombstone then kinds else kind :: kinds, opened)
      | _ => .error .brokenMarker
termination_by rest.length

/-- Adds the build steps for the events from position `here` on to `steps`; `opened` holds the
positions of the starts that were moved to an earlier place, and `text` is what the tokens stand
in. -/
def resolveFrom (text : String) (here : Nat) (opened : List Nat) (steps : Array BuildStep) :
    List Event → Except Fault (Array BuildStep)
  | [] => .ok steps
  | .start kind forward :: rest =>
    if opened.contains here then resolveFrom text (here + 1) (opened.erase here) steps rest
    else if kind = .tombstone then resolveFrom text (here + 1) opened steps rest
    else do
      let (kinds, opened) ← parents here rest (here :: opened) forward
      let steps := steps ++ kinds.reverse.map BuildStep.start
      resolveFrom text (here + 1) (opened.erase here) (steps.push (.start kind)) rest
  | .missing kind forward :: rest => do
    let (kinds, opened) ← parents here rest (here :: opened) forward
    let steps := steps ++ kinds.reverse.map BuildStep.start
    resolveFrom text (here + 1) (opened.erase here) (steps.push (.missing kind)) rest
  | .token t :: rest => do
    let step ← tokenStep text t
    resolveFrom text (here + 1) opened (steps.push step) rest
  | .absent :: rest => resolveFrom text (here + 1) opened (steps.push .absent) rest
  | .finish :: rest => resolveFrom text (here + 1) opened (steps.push .finish) rest

/-- The build steps that a list of events describes, with the tokens cut out of a text. -/
def resolve (text : String) (events : List Event) : Except Fault (List BuildStep) :=
  return (← resolveFrom text 0 [] #[] events).toList

end Event

end Verbatim
