import Verbatim.Event

/-!
# The parser

A parser holds the tokens still to be consumed, the events written so far and a record of how deeply
the grammar is nested. The operations below are the vocabulary of the grammar: looking at the next
token, consuming it, standing in for what is not there, setting stray text aside, and opening and
closing nodes. A required element that is not there never stops the parser.
-/

namespace Verbatim

/-- How deeply expressions may nest before the parser stops descending. -/
def maxNesting : Nat := 256

/-- How deeply the grammar is nested, and how it fared against the limit. -/
structure Nesting where
  /-- The number of levels entered and not yet left. -/
  depth : Nat := 0
  /-- Whether the limit was met; from then on no level can be entered until recovery. -/
  exhausted : Bool := false
  /-- The greatest depth so far. -/
  deepest : Nat := 0
  /-- How many times a level was refused so far. -/
  refusals : Nat := 0
  deriving DecidableEq, Repr

/-- A parser in the middle of a text. -/
structure Parser where
  /-- The tokens still to be consumed, without the end of the text. -/
  rest : List Token
  /-- The end of the text. -/
  eof : Token
  /-- The events written so far. -/
  events : Array Event := #[]
  /-- The nesting of the grammar. -/
  nesting : Nesting := {}

/-- A piece of the grammar: it changes the parser, and fails only if it is misused. -/
abbrev Grammar := StateT Parser (Except Fault)

/-- The position of a start event whose node is not closed yet. -/
structure Marker where
  /-- Position in the list of events. -/
  position : UInt32

/-- The position of an element that is complete and may still get a parent. -/
structure Completed where
  /-- Position in the list of events. -/
  position : UInt32

namespace Parser

/-- A parser at the start of a text. -/
def ofStream (s : TokenStream) : Parser := { rest := s.tokens, eof := s.eof }

/-- The kind of the next token. -/
def nextKind (p : Parser) : Kind :=
  match p.rest with
  | [] => .eof
  | t :: _ => t.kind

/-- Writes an event down. -/
def emit (p : Parser) (e : Event) : Parser := { p with events := p.events.push e }

/-- The position the next event will have, as far as 32 bits can tell. -/
def position (p : Parser) : UInt32 := p.events.size.toUInt32

/-- Moves the next token, unless it is the end of the text, to the events. -/
def consume (p : Parser) : Parser :=
  match p.rest with
  | [] => p
  | t :: rest => { p with rest, events := p.events.push (.token t) }

end Parser

namespace Nesting

/-- Enters one level; the answer is `false` once the limit is met. -/
def enter (n : Nesting) : Bool × Nesting :=
  if n.exhausted then (false, { n with refusals := n.refusals + 1 })
  else if n.depth ≥ maxNesting then
    (false, { n with exhausted := true, refusals := n.refusals + 1 })
  else (true, { n with depth := n.depth + 1, deepest := max n.deepest (n.depth + 1) })

end Nesting

namespace Grammar

/-- The kind of the next token. -/
def peek : Grammar Kind := return (← get).nextKind

/-- Whether the next token has the given kind. -/
def at? (kind : Kind) : Grammar Bool := return (← peek) == kind

/-- Whether the kind of the next token is in the set. -/
def atAny (kinds : KindSet) : Grammar Bool := return kinds.contains (← peek)

/-- Insists on the kind of the next token. -/
def insist (kind : Kind) : Grammar Unit := do
  let found ← peek
  unless found = kind do throw (.wrongToken found kind)

/-- Consumes the next token; does nothing at the end of the text. -/
def advance : Grammar Unit := modify Parser.consume

/-- Consumes the end of the text, which carries the last trivia. -/
def finishInput : Grammar Unit := do
  insist .eof
  modify fun p => p.emit (.token p.eof)

/-- Leaves a slot empty. -/
def absent : Grammar Unit := modify (·.emit .absent)

/-- Stands in for an element that is not there. -/
def missing (kind : Kind) : Grammar Completed := do
  let position := (← get).position
  modify (·.emit (.missing kind none))
  return ⟨position⟩

/-- Consumes the next token if it has the given kind, and tells whether it did. -/
def eat (kind : Kind) : Grammar Bool := do
  if ← at? kind then
    advance
    return true
  else return false

/-- Fills a required token slot. -/
def expect (kind : Kind) : Grammar Unit := do
  unless ← eat kind do discard <| missing kind

/-- Fills an optional token slot, and tells whether there was a token. -/
def eatOrAbsent (kind : Kind) : Grammar Bool := do
  if ← eat kind then return true
  else
    absent
    return false

/-- Opens a node. -/
def start : Grammar Marker := do
  let position := (← get).position
  modify (·.emit .unnamed)
  return ⟨position⟩

/-- Names the start event at a position. -/
def nameStart (position : UInt32) (kind : Kind) (p : Parser) : Except Fault Parser :=
  match p.events[position.toNat]? with
  | some (.start _ forward) =>
    .ok { p with events := p.events.setIfInBounds position.toNat (.start kind forward) }
  | _ => .error .brokenMarker

/-- Tells the element at a position how far ahead its parent starts. -/
def linkParent (position : UInt32) (distance : UInt32) (p : Parser) : Except Fault Parser :=
  match p.events[position.toNat]? with
  | some (.start kind _) =>
    .ok { p with events := p.events.setIfInBounds position.toNat (.start kind (some distance)) }
  | some (.missing kind _) =>
    .ok { p with events := p.events.setIfInBounds position.toNat (.missing kind (some distance)) }
  | _ => .error .brokenMarker

/-- Changes the parser by a step that may fail. -/
def change (step : Parser → Except Fault Parser) : Grammar Unit :=
  fun p => (step p).map fun p => ((), p)

/-- Closes a node. -/
def complete (m : Marker) (kind : Kind) : Grammar Completed := do
  change (nameStart m.position kind)
  modify (·.emit .finish)
  return ⟨m.position⟩

/-- Opens a node around an element that is complete. -/
def precede (c : Completed) : Grammar Marker := do
  let parent ← start
  unless c.position ≤ parent.position do throw .positionUnderflow
  change (linkParent c.position (parent.position - c.position))
  return parent

/-- Enters one nesting level, and tells whether it was granted. -/
def enterNesting : Grammar Bool :=
  modifyGet fun p =>
    let (granted, nesting) := p.nesting.enter
    (granted, { p with nesting })

/-- Leaves nesting levels. -/
def leaveNesting (levels : Nat) : Grammar Unit := do
  unless levels ≤ (← get).nesting.depth do throw .nestingUnderflow
  modify fun p => { p with nesting := { p.nesting with depth := p.nesting.depth - levels } }

/-- Whether the nesting limit was met. -/
def nestingExhausted : Grammar Bool := return (← get).nesting.exhausted

/-- Repeats a step that says when it is done. A step may go on once for each of the given tokens. -/
def repeatAlong {α : Type} (step : α → Grammar (ForInStep α)) : List Token → α → Grammar α
  | [], a => do
    match ← step a with
    | .done a => return a
    | .yield _ => throw .stalled
  | _ :: bound, a => do
    match ← step a with
    | .done a => return a
    | .yield a => repeatAlong step bound a

/-- Repeats a step that consumes a token whenever it goes on. -/
def repeatTokens {α : Type} (init : α) (step : α → Grammar (ForInStep α)) : Grammar α := do
  repeatAlong step (← get).rest init

/-- Consumes a token; goes on unless one of the given kinds or the end of the text follows. -/
def consumeStep (stop : KindSet) : Grammar (ForInStep Unit) := do
  advance
  if (← at? .eof) || (← atAny stop) then return .done () else return .yield ()

/-- Consumes tokens up to one of the given kinds or the end of the text. -/
def consumeUntil (stop : KindSet) : Grammar Unit :=
  repeatTokens () fun _ => consumeStep stop

/-- Sets the next token aside, and all that follow up to one of the given kinds. -/
def wrapUnexpected (stop : KindSet) : Grammar Unit := do
  if ← at? .eof then throw .nothingToWrap
  let m ← start
  consumeUntil stop
  discard <| complete m .unexpected

/-- Fills an optional slot for stray text with the tokens before one of the given kinds. -/
def wrapUntil (stop : KindSet) : Grammar Unit := do
  if (← at? .eof) || (← atAny stop) then absent else wrapUnexpected stop

/-- After the nesting limit was met, sets everything aside up to one of the given kinds and lets the
grammar descend again. -/
def recoverNesting (stop : KindSet) : Grammar Unit := do
  let exhausted ← nestingExhausted
  modify fun p => { p with nesting := { p.nesting with exhausted := false } }
  if exhausted && !(← at? .eof) && !(← atAny stop) then wrapUnexpected stop

end Grammar

end Verbatim
