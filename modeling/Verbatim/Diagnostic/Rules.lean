import Verbatim.Diagnostic

/-!
# What is diagnosed

A marker is an element that stands in for something missing, or a node of unexpected text. Every
outermost marker of a tree is diagnosed once. Rules that know the context of a marker come first; a
marker that none of them explains gets a general message.
-/

namespace Verbatim

namespace View

/-- Whether an element stands in for something, or is unexpected text. -/
def isMarker (v : View) : Bool := v.isMissing || (v.isNode && v.kind == .unexpected)

/-- The markers that entering an element brings up: itself, or the placeholders among its tokens. -/
def markersAt (v : View) : List View :=
  if !v.hasError then []
  else if v.isMarker then [v]
  else v.children.filter fun c => !c.isNode && c.isMissing

/-- The outermost markers below a view. Parts without errors are not entered, and neither are
markers. -/
def markers (v : View) : List View :=
  let skips : Visit → Bool
    | .enter d => d.isNode && (!d.hasError || d.isMarker)
    | .leave _ => false
  let entered := ((Walk.ofView v).run skips).filterMap Visit.entered?
  (entered.filter isNode).flatMap markersAt

/-- What a reader calls a kind in the middle of a message. -/
def describeKind (kind : Kind) : String :=
  match kind.fixedText? with
  | some text => s!"`{text}`"
  | none => kind.describe

/-- A finding: the condition and what a reader is told. -/
abbrev Finding := DiagnosticId × String

/-- The token in a slot that has to exist. -/
def tokenAt (v : View) (index : Nat) : Except Fault (Option View) := do
  return (← v.slotAt index).filter fun c => !c.isNode

/-- An expression is missing after an operator. -/
def missingOperand (v : View) : Except Fault (Option Finding) := do
  if v.isNode && v.isMissing && v.kind == .missingExpr then
    let some parent := v.parent? | return none
    let operatorIndex : Option Nat :=
      match parent.kind, v.index? with
      | .binaryExpr, some 2 => some 1
      | .prefixExpr, some 1 => some 0
      | _, _ => none
    let some index := operatorIndex | return none
    let some operator ← parent.tokenAt index | return none
    let text ← operator.trimmedText
    return some (.missingExpressionAfterOperator, s!"expected an expression after `{text}`")
  else return none

/-- A parenthesis or brace that was opened is not closed. -/
def unclosedDelimiter (v : View) : Except Fault (Option Finding) := do
  if v.isNode then return none
  let opening? : Option Kind :=
    match v.kind with
    | .rParen => some .lParen
    | .rBrace => some .lBrace
    | _ => none
  let some opening := opening? | return none
  let some parent := v.parent? | return none
  let some first ← parent.tokenAt 0 | return none
  if first.kind ≠ opening || first.isMissing then return none
  let wanted := describeKind v.kind
  let opened := describeKind opening
  return some (.missingClosingDelimiter,
    s!"expected {wanted} to close the {opened} at {first.contentSpan.start}")

/-- A function has no body. -/
def missingBody (v : View) : Except Fault (Option Finding) := do
  if v.isNode && v.isMissing && v.kind == .codeBlock then
    let some func := v.parent?.filter (·.kind == .funcDecl) | return none
    match (← func.tokenAt 1).filter (fun name => !name.isMissing) with
    | some name =>
      let text ← name.trimmedText
      return some (.missingCodeBlock, s!"function `{text}` has no body")
    | none => return some (.missingCodeBlock, "function has no body")
  else return none

/-- Text at the top level that is no item. -/
def topLevelCode (v : View) : Except Fault (Option Finding) := do
  if v.isNode && v.kind == .unexpected && v.parent?.any (·.kind == .itemList) then
    let text ← v.innerText
    return some (.extraneousTopLevelCode, s!"`{text}` is not allowed at the top level")
  else return none

/-- The rules that know the context of a marker, in the order in which they are tried. -/
def contextualRules : List (View → Except Fault (Option Finding)) :=
  [missingOperand, unclosedDelimiter, missingBody, topLevelCode]

/-- The first rule that explains a marker. -/
def contextualFinding (v : View) :
    List (View → Except Fault (Option Finding)) → Except Fault (Option Finding)
  | [] => return none
  | rule :: rules => do
    match ← rule v with
    | some finding => return some finding
    | none => v.contextualFinding rules

/-- The general message for a marker. -/
def generalFinding (v : View) : Except Fault Finding := do
  if !v.isNode then return (.missingToken, s!"expected {describeKind v.kind}")
  else if v.kind = .unexpected then
    let text ← v.innerText
    return (.unexpectedText, s!"unexpected `{text}`")
  else if v.kind = .missingExpr then return (.missingExpression, "expected an expression")
  else return (.missingNode, s!"expected {describeKind v.kind}")

/-- Reports the markers that a rule with context explains. -/
def reportContextual (s : DiagnosticSink) (marker : View) : Except Fault DiagnosticSink := do
  match ← marker.contextualFinding contextualRules with
  | some (id, message) => return s.report ⟨id, message, marker⟩
  | none => return s

/-- Reports the markers that nothing was said about yet. -/
def reportGeneral (s : DiagnosticSink) (marker : View) : Except Fault DiagnosticSink := do
  if s.isHandled marker then return s
  let (id, message) ← marker.generalFinding
  return s.report ⟨id, message, marker⟩

/-- The diagnostics of everything below a view, by place. -/
def diagnostics (v : View) : Except Fault (List Diagnostic) := do
  let markers := v.markers
  let sink ← markers.foldlM reportContextual {}
  let sink ← markers.foldlM reportGeneral sink
  sink.finish

end View

end Verbatim
