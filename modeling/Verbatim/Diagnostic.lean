import Verbatim.View.Trim

/-!
# Diagnostics

A diagnostic is a message about an element of a tree. Its identifier names the condition and is
stable; the message may vary. A sink collects diagnostics and remembers which elements already have
one, by their paths.
-/

namespace Verbatim

/-- The conditions that can be diagnosed. -/
inductive DiagnosticId where
  | missingToken | missingNode | missingExpression | missingExpressionAfterOperator
  | missingClosingDelimiter | missingCodeBlock | unexpectedText | extraneousTopLevelCode
  deriving DecidableEq, Repr, Inhabited

namespace DiagnosticId

/-- Every condition once, in the order in which diagnostics of one place are listed. -/
def all : List DiagnosticId :=
  [missingToken, missingNode, missingExpression, missingExpressionAfterOperator,
    missingClosingDelimiter, missingCodeBlock, unexpectedText, extraneousTopLevelCode]

/-- The position of a condition in `DiagnosticId.all`. -/
def number (id : DiagnosticId) : Nat := id.ctorIdx

/-- The stable written form of a condition. -/
def name : DiagnosticId → String
  | missingToken => "missing-token"
  | missingNode => "missing-node"
  | missingExpression => "missing-expression"
  | missingExpressionAfterOperator => "missing-expression-after-operator"
  | missingClosingDelimiter => "missing-closing-delimiter"
  | missingCodeBlock => "missing-code-block"
  | unexpectedText => "unexpected-text"
  | extraneousTopLevelCode => "extraneous-top-level-code"

/-- The condition as one word, each part capitalised. -/
def variant : DiagnosticId → String
  | missingToken => "MissingToken"
  | missingNode => "MissingNode"
  | missingExpression => "MissingExpression"
  | missingExpressionAfterOperator => "MissingExpressionAfterOperator"
  | missingClosingDelimiter => "MissingClosingDelimiter"
  | missingCodeBlock => "MissingCodeBlock"
  | unexpectedText => "UnexpectedText"
  | extraneousTopLevelCode => "ExtraneousTopLevelCode"

/-- Reads a condition back from its written form. -/
def ofName? (s : String) : Option DiagnosticId := all.find? fun id => id.name == s

/-- The written form can be read back. -/
theorem ofName?_name (id : DiagnosticId) : ofName? id.name = some id := by cases id <;> decide

end DiagnosticId

/-- A message about an element of a tree. -/
structure Diagnostic where
  /-- The condition that was found. -/
  id : DiagnosticId
  /-- What a reader is told. -/
  message : String
  /-- The element the message is about. -/
  anchor : View

/-- What a renderer draws: a title, and the source with a mark in it. -/
structure Report where
  /-- The written form of the condition. -/
  condition : String
  /-- What a reader is told. -/
  message : String
  /-- The path of the source. -/
  path : String
  /-- The text of the source. -/
  text : String
  /-- The place that is marked. -/
  mark : Text.Span
  /-- What is written at the mark. -/
  label : String := "here"
  deriving DecidableEq, Repr

namespace Diagnostic

/-- Where the anchor stands, outer trivia left out. -/
def span (d : Diagnostic) : Except Fault Text.Span := d.anchor.trimmedSpan

/-- What a renderer is told about a diagnostic, given the path and the text of its source. -/
def report (d : Diagnostic) (path text : String) : Except Fault Report :=
  return { condition := d.id.name, message := d.message, path, text, mark := ← d.span }

/-- Shows a diagnostic in its source, the way a renderer draws reports. -/
def render {β : Type} (d : Diagnostic) (renderer : Report → β) (path text : String) :
    Except Fault β :=
  return renderer (← d.report path text)

end Diagnostic

/-- Diagnostics under collection. -/
structure DiagnosticSink where
  /-- The diagnostics reported so far, in order. -/
  diagnostics : List Diagnostic := []
  /-- The paths of the elements that need no further report. -/
  handled : List (List Nat) := []

namespace DiagnosticSink

/-- Whether an element needs no further report. -/
def isHandled (s : DiagnosticSink) (v : View) : Bool := s.handled.contains v.path

/-- Notes that an element needs no further report; tells whether that is new. -/
def markHandled (s : DiagnosticSink) (v : View) : Bool × DiagnosticSink :=
  if s.isHandled v then (false, s) else (true, { s with handled := v.path :: s.handled })

/-- Reports a diagnostic, and notes that its anchor needs no further one. -/
def report (s : DiagnosticSink) (d : Diagnostic) : DiagnosticSink :=
  { (s.markHandled d.anchor).2 with diagnostics := s.diagnostics ++ [d] }

/-- Number of diagnostics reported so far. -/
def length (s : DiagnosticSink) : Nat := s.diagnostics.length

/-- Whether one place and condition is listed no later than another. -/
def placedLe (a b : Text.Span × Diagnostic) : Bool :=
  let key := fun (p : Text.Span × Diagnostic) => (p.1.start, p.1.stop, p.2.id.number)
  let (start, stop, id) := key a
  let (start', stop', id') := key b
  start < start' || start == start' && (stop < stop' || stop == stop' && id ≤ id')

/-- The diagnostics by place; those of one place by condition, and otherwise as reported. -/
def finish (s : DiagnosticSink) : Except Fault (List Diagnostic) := do
  let placed ← s.diagnostics.mapM fun d => return (← d.span, d)
  return (placed.mergeSort placedLe).map (·.2)

end DiagnosticSink

end Verbatim
