import Verbatim.Parser

/-!
# The grammar

The grammar of a file: functions and variables at the top level, statements in code blocks, and
expressions with prefix and binary operators and calls. Every production fills each slot of its node
exactly once. Text that fits nowhere is set aside up to a token from which parsing can go on; `func`
is such a token everywhere.

Expressions enter a nesting level for each prefix, operand, operator and call. The limit on these
levels is what bounds the recursion: a production that may recurse takes the number of levels that
are left at most.
-/

namespace Verbatim

namespace Grammar

/-- Tokens that start a top-level item. -/
def itemFirst : KindSet := .ofList [.funcKw, .letKw]

/-- Tokens that start an expression. -/
def exprFirst : KindSet := .ofList [.ident, .intNumber, .lParen, .minus]

/-- Tokens that close a code block, whether or not the brace is there. -/
def blockEnd : KindSet := .ofList [.rBrace, .funcKw]

/-- Where the rest of an overly nested statement ends. -/
def nestingStop : KindSet := .ofList [.letKw, .returnKw, .rBrace, .funcKw]

/-- Where stray tokens inside a code block end. -/
def stmtStop : KindSet := nestingStop.union exprFirst

/-- Where stray tokens between a function name and its parameters end. -/
def paramsStop : KindSet := .ofList [.lParen, .arrow, .lBrace, .funcKw, .letKw]

/-- Where stray tokens inside a parameter clause end. -/
def rParenStop : KindSet := .ofList [.rParen, .arrow, .lBrace, .funcKw, .letKw]

/-- How tightly a binary operator binds. -/
def bindingPower? : Kind → Option Nat
  | .plus | .minus => some 1
  | .star | .slash => some 2
  | _ => none

/-- A node that holds the next token only. -/
def tokenNode (kind : Kind) : Grammar Completed := do
  let m ← start
  advance
  complete m kind

/-- Closes a member of a list after its comma; goes on while there is a comma. -/
def closeMember (m : Marker) (kind : Kind) : Grammar (ForInStep Unit) := do
  let comma ← eatOrAbsent .comma
  discard <| complete m kind
  if comma then return .yield () else return .done ()

/-- One argument with its comma; goes on while there is a comma. -/
def argument (expr : Grammar Completed) : Grammar (ForInStep Unit) := do
  if ((← at? .comma) || (← atAny exprFirst)) && !(← nestingExhausted) then
    let m ← start
    discard expr
    closeMember m .arg
  else return .done ()

/-- The arguments of a call with their parentheses. -/
def argClause (expr : Grammar Completed) : Grammar Unit := do
  insist .lParen
  let m ← start
  advance
  let args ← start
  repeatTokens () fun _ => argument expr
  discard <| complete args .argList
  expect .rParen
  discard <| complete m .argClause

/-- A number, a name or an expression in parentheses. -/
def primaryExpr (expr : Grammar Completed) : Grammar Completed := do
  match ← peek with
  | .intNumber => tokenNode .literalExpr
  | .ident => tokenNode .nameExpr
  | .lParen =>
    let m ← start
    advance
    discard expr
    expect .rParen
    complete m .parenExpr
  | _ => missing .missingExpr

/-- Wraps what was read so far into a call, if an argument clause follows. The number counts the
levels entered. -/
def callLink (expr : Grammar Completed) :
    Completed × Nat → Grammar (ForInStep (Completed × Nat)) := fun (callee, calls) => do
  if ← at? .lParen then
    if ← enterNesting then
      let m ← precede callee
      argClause expr
      return .yield (← complete m .callExpr, calls + 1)
  return .done (callee, calls)

/-- A primary expression and the calls that follow it. -/
def postfixExpr (expr : Grammar Completed) : Grammar Completed := do
  let callee ← primaryExpr expr
  let (result, calls) ← repeatTokens (callee, 0) (callLink expr)
  leaveNesting calls
  return result

/-- An operand with the signs before it. Past the nesting limit the operand is left out, and what
would have filled it is set aside by the enclosing item or statement. -/
def prefixExpr (expr : Grammar Completed) : Nat → Grammar Completed
  | 0 => throw .tooDeep
  | levels + 1 => do
    if ← enterNesting then
      let operand ←
        if ← at? .minus then
          let m ← start
          advance
          discard <| prefixExpr expr levels
          complete m .prefixExpr
        else postfixExpr expr
      leaveNesting 1
      return operand
    else missing .missingExpr

/-- Wraps what was read so far into a binary expression, if an operator follows that binds tighter
than `minPower`. The number counts the levels entered. -/
def operatorLink (operand : Nat → Grammar Completed) (minPower : Nat) :
    Completed × Nat → Grammar (ForInStep (Completed × Nat)) := fun (lhs, links) => do
  if let some power := bindingPower? (← peek) then
    if minPower < power then
      if ← enterNesting then
        let m ← precede lhs
        advance
        discard <| operand power
        return .yield (← complete m .binaryExpr, links + 1)
  return .done (lhs, links)

/-- Operands joined by operators that bind tighter than `minPower`. -/
def operatorExpr : Nat → Nat → Grammar Completed
  | 0, _ => throw .tooDeep
  | levels + 1, minPower => do
    let first ← prefixExpr (operatorExpr levels 0) (levels + 1)
    let (result, links) ←
      repeatTokens (first, 0) (operatorLink (operatorExpr levels) minPower)
    leaveNesting links
    return result

/-- An expression, or a placeholder for one. -/
def expr : Grammar Completed := operatorExpr (maxNesting + 1) 0

/-- The name of a type, or a placeholder for one. -/
def typeName : Grammar Unit := do
  if ← at? .ident then discard <| tokenNode .typeName else discard <| missing .typeName

/-- A colon or an arrow and the type after it. -/
def typeAfter (mark node : Kind) : Grammar Unit := do
  insist mark
  let m ← start
  advance
  typeName
  discard <| complete m node

/-- The equals sign of a variable and its value. -/
def initializer : Grammar Unit := do
  let m ← start
  advance
  discard expr
  discard <| complete m .initializerClause

/-- A variable declaration. -/
def letDecl : Grammar Unit := do
  insist .letKw
  let m ← start
  advance
  expect .ident
  if ← at? .colon then typeAfter .colon .typeAscription else absent
  if ← at? .eq then initializer else absent
  discard <| complete m .letDecl

/-- A return statement. -/
def returnStmt : Grammar Unit := do
  let m ← start
  advance
  if ← atAny exprFirst then discard expr else absent
  discard <| complete m .returnStmt

/-- One statement of a code block. -/
def stmt : Grammar Unit := do
  match ← peek with
  | .letKw => letDecl
  | .returnKw => returnStmt
  | kind =>
    if exprFirst.contains kind then
      let m ← start
      discard expr
      discard <| complete m .exprStmt
    else wrapUnexpected stmtStop

/-- One statement and what has to be set aside after it; goes on while the block does. -/
def blockStep : Grammar (ForInStep Unit) := do
  if (← at? .eof) || (← atAny blockEnd) then return .done ()
  else
    stmt
    recoverNesting nestingStop
    return .yield ()

/-- Statements between braces. -/
def codeBlock : Grammar Unit := do
  insist .lBrace
  let m ← start
  advance
  let stmts ← start
  repeatTokens () fun _ => blockStep
  discard <| complete stmts .stmtList
  expect .rBrace
  discard <| complete m .codeBlock

/-- One parameter with its comma; goes on while there is a comma. -/
def parameter : Grammar (ForInStep Unit) := do
  if ← at? .ident then
    let m ← start
    advance
    expect .colon
    typeName
    closeMember m .param
  else return .done ()

/-- The parameters of a function with their parentheses. -/
def paramClause : Grammar Unit := do
  insist .lParen
  let m ← start
  advance
  let params ← start
  repeatTokens () fun _ => parameter
  discard <| complete params .paramList
  wrapUntil rParenStop
  expect .rParen
  discard <| complete m .paramClause

/-- A function declaration. -/
def funcDecl : Grammar Unit := do
  let m ← start
  advance
  expect .ident
  wrapUntil paramsStop
  if ← at? .lParen then paramClause else discard <| missing .paramClause
  if ← at? .arrow then typeAfter .arrow .returnClause else absent
  if ← at? .lBrace then codeBlock else discard <| missing .codeBlock
  discard <| complete m .funcDecl

/-- One item of a file. -/
def item : Grammar Unit := do
  match ← peek with
  | .funcKw => funcDecl
  | .letKw => letDecl
  | _ => wrapUnexpected itemFirst

/-- One item and what has to be set aside after it; goes on to the end of the text. -/
def fileStep : Grammar (ForInStep Unit) := do
  if ← at? .eof then return .done ()
  else
    item
    recoverNesting itemFirst
    return .yield ()

/-- A whole file. -/
def sourceFile : Grammar Unit := do
  let m ← start
  let items ← start
  repeatTokens () fun _ => fileStep
  discard <| complete items .itemList
  finishInput
  discard <| complete m .sourceFile

end Grammar

/-- The parser after it has read a whole stream of tokens. -/
def TokenStream.parsed (s : TokenStream) : Except Fault Parser :=
  return (← Grammar.sourceFile.run (.ofStream s)).2

/-- The steps that build the tree of a stream of tokens, which are those of a text. -/
def TokenStream.buildSteps (text : String) (s : TokenStream) : Except Fault (List BuildStep) := do
  Event.resolve text (← s.parsed).events.toList

end Verbatim
