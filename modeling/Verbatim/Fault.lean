import Verbatim.KindSet

/-!
# Faults

A fault is a broken contract between a caller and the library: an index out of range, a kind of the
wrong sort, a width that no longer fits. Parsing a text is never a fault. The wording of every fault
is in `Fault.message?` and nowhere else.
-/

namespace Verbatim

/-- The cause of a failed operation. -/
inductive Fault where
  /-- A token was asked for with a kind that labels nodes. -/
  | notTokenKind (kind : Kind)
  /-- A node was asked for with a kind that labels tokens. -/
  | notNodeKind (kind : Kind)
  /-- The kind does not determine its spelling. -/
  | noFixedText (kind : Kind)
  /-- A byte count left the 32-bit range. -/
  | widthOverflow
  /-- A position was subtracted from a smaller one. -/
  | positionUnderflow
  /-- A single text is too long for a 32-bit byte count. -/
  | textTooLong
  /-- The trivia pieces are longer than the text of the token. -/
  | triviaTooLong
  /-- A placeholder token was given text. -/
  | missingWithText
  /-- A text was cut inside a character. -/
  | cutCharacter
  /-- A part of a text up to an offset was wanted, and the text ends earlier. -/
  | stopPastText (stop length : Nat)
  /-- A node was finished although none is open. -/
  | noOpenNode
  /-- A node was finished with a number of slots other than its layout declares. -/
  | slotCount (kind : Kind) (found expected : Nat)
  /-- Building ended with open nodes, listed outermost first with the children before each. -/
  | unfinished (opened : List (Kind × Nat))
  /-- Building ended with no element, or with several. -/
  | rootCount (found : Nat)
  /-- Building ended with a token or an empty slot. -/
  | rootNotNode
  /-- A builder was given up with open nodes. -/
  | abandoned
  /-- A slot was read past the end. -/
  | indexOutOfBounds (length index : Nat)
  /-- Slots were summed past the end. -/
  | stopOutOfBounds (stop length : Nat)
  /-- A slot was replaced past the end. -/
  | slotOutOfRange (index : Nat) (kind : Kind) (count : Nat)
  /-- A range of slots was replaced that the node does not have. -/
  | rangeOutOfBounds (start stop : Nat) (kind : Kind) (count : Nat)
  /-- A collection was given a member it does not accept. -/
  | memberRefused (kind : Kind) (members : KindSet)
  /-- A position in a collection was moved past its end. -/
  | pastEnd
  /-- A position in a collection was moved before its start. -/
  | beforeStart
  /-- A collection has an empty slot where a member was wanted. -/
  | absentMember (kind : Kind) (index : Nat)
  /-- A member was removed or replaced past the end of a collection. -/
  | memberOutOfRange (index length : Nat)
  /-- The grammar was entered at the wrong token. -/
  | wrongToken (found expected : Kind)
  /-- There is no text left to set aside. -/
  | nothingToWrap
  /-- More nesting levels were left than were entered. -/
  | nestingUnderflow
  /-- A marker does not point at an event that opens a node. -/
  | brokenMarker
  /-- A loop of the grammar ran more often than there are tokens. -/
  | stalled
  /-- The grammar recursed deeper than the nesting limit allows. -/
  | tooDeep
  deriving DecidableEq

namespace Fault

/-- The wording of two numbers that should have been equal. -/
def mismatch (text : String) (left right : Nat) : String :=
  s!"assertion `left == right` failed: {text}\n  left: {left}\n right: {right}"

/-- The open nodes of an unfinished tree, as they are written in a message. -/
def renderOpened (opened : List (Kind × Nat)) : String :=
  "[" ++ ", ".intercalate (opened.map fun (kind, before) => s!"({kind.name}, {before})") ++ "]"

/-- The wording of a fault; a text cut inside a character has none. -/
def message? : Fault → Option String
  | notTokenKind kind => some s!"{kind.name} is not a token kind"
  | notNodeKind kind => some s!"{kind.name} is not a node kind"
  | noFixedText kind => some s!"{kind.name} has no fixed text"
  | widthOverflow => some "attempt to add with overflow"
  | positionUnderflow => some "attempt to subtract with overflow"
  | textTooLong => some "the text is too long"
  | triviaTooLong => some "trivia is longer than the token text"
  | missingWithText => some "missing tokens have no text"
  | cutCharacter => none
  | stopPastText stop length =>
    some s!"end byte index {stop} is out of bounds for string of length {length}"
  | noOpenNode => some "no opened nodes"
  | slotCount kind found expected =>
    some (mismatch s!"{kind.name} was built with the wrong number of slots" found expected)
  | unfinished opened => some s!"unfinished nodes: {renderOpened opened}"
  | rootCount found => some (mismatch "expected exactly one root" found 1)
  | rootNotNode => some "the root must be a node"
  | abandoned => some "you should call `Builder::finish()`"
  | indexOutOfBounds length index =>
    some s!"index out of bounds: the len is {length} but the index is {index}"
  | stopOutOfBounds stop length =>
    some s!"range end index {stop} out of range for slice of length {length}"
  | slotOutOfRange index kind count =>
    some s!"slot index {index} is out of range for {kind.name} with {count} slots"
  | rangeOutOfBounds start stop kind count =>
    some s!"slot range {start}..{stop} is out of bounds for {kind.name} with {count} slots"
  | memberRefused kind members => some s!"{kind.name} only accepts {members.render}"
  | pastEnd => some "cannot advance past the end index"
  | beforeStart => some "cannot move before the start index"
  | absentMember kind index => some s!"{kind.name} has an absent member at {index}"
  | memberOutOfRange index length => some s!"index {index} is out of range for length {length}"
  | wrongToken found expected => some (mismatch "wrong token" found.number expected.number)
  | nothingToWrap => some "nothing left to wrap"
  | nestingUnderflow => some "more nesting levels were left than entered"
  | brokenMarker => some "internal error: entered unreachable code"
  | stalled => some "a loop of the grammar made no progress"
  | tooDeep => some "the grammar recursed past the nesting limit"

end Fault

end Verbatim
