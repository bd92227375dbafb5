/-!
# Kinds of tokens and nodes

Every element of a tree carries one of 46 kinds. The kinds up to and including `eof` label leaves,
the ones after it label interior nodes. The order of the constructors is the order of the kind
numbers, which kind sets and diagnostics rely on.
-/

namespace Verbatim

/-- The label of a tree element: what it spells, or which production it stands for. -/
inductive Kind where
  | lParen | rParen | lBrace | rBrace | comma | colon | arrow | eq | plus | minus | star | slash
  | funcKw | letKw | returnKw | ident | intNumber | unknown | eof
  | sourceFile | itemList | funcDecl | paramClause | paramList | param | returnClause | typeName
  | codeBlock | stmtList | letDecl | typeAscription | initializerClause | returnStmt | exprStmt
  | binaryExpr | prefixExpr | parenExpr | callExpr | argClause | argList | arg
  | literalExpr | nameExpr | missingExpr | unexpected | tombstone
  deriving DecidableEq, Hashable, Repr, Inhabited

namespace Kind

/-- Every kind once, in the order of the kind numbers. -/
def all : List Kind :=
  [lParen, rParen, lBrace, rBrace, comma, colon, arrow, eq, plus, minus, star, slash,
    funcKw, letKw, returnKw, ident, intNumber, unknown, eof,
    sourceFile, itemList, funcDecl, paramClause, paramList, param, returnClause, typeName,
    codeBlock, stmtList, letDecl, typeAscription, initializerClause, returnStmt, exprStmt,
    binaryExpr, prefixExpr, parenExpr, callExpr, argClause, argList, arg,
    literalExpr, nameExpr, missingExpr, unexpected, tombstone]

/-- The position of a kind in `Kind.all`. -/
def number (k : Kind) : Nat := k.ctorIdx

/-- Kind numbers are the positions in the list of all kinds. -/
theorem getElem?_all_number (k : Kind) : all[k.number]? = some k := by cases k <;> rfl

/-- Every kind number fits in a 64-bit set. -/
theorem number_lt (k : Kind) : k.number < 64 := by cases k <;> decide

/-- The written name of a kind. -/
def name : Kind → String
  | lParen => "L_PAREN"
  | rParen => "R_PAREN"
  | lBrace => "L_BRACE"
  | rBrace => "R_BRACE"
  | comma => "COMMA"
  | colon => "COLON"
  | arrow => "ARROW"
  | eq => "EQ"
  | plus => "PLUS"
  | minus => "MINUS"
  | star => "STAR"
  | slash => "SLASH"
  | funcKw => "FUNC_KW"
  | letKw => "LET_KW"
  | returnKw => "RETURN_KW"
  | ident => "IDENT"
  | intNumber => "INT_NUMBER"
  | unknown => "UNKNOWN"
  | eof => "EOF"
  | sourceFile => "SOURCE_FILE"
  | itemList => "ITEM_LIST"
  | funcDecl => "FUNC_DECL"
  | paramClause => "PARAM_CLAUSE"
  | paramList => "PARAM_LIST"
  | param => "PARAM"
  | returnClause => "RETURN_CLAUSE"
  | typeName => "TYPE_NAME"
  | codeBlock => "CODE_BLOCK"
  | stmtList => "STMT_LIST"
  | letDecl => "LET_DECL"
  | typeAscription => "TYPE_ANNOTATION"
  | initializerClause => "INITIALIZER_CLAUSE"
  | returnStmt => "RETURN_STMT"
  | exprStmt => "EXPR_STMT"
  | binaryExpr => "BINARY_EXPR"
  | prefixExpr => "PREFIX_EXPR"
  | parenExpr => "PAREN_EXPR"
  | callExpr => "CALL_EXPR"
  | argClause => "ARG_CLAUSE"
  | argList => "ARG_LIST"
  | arg => "ARG"
  | literalExpr => "LITERAL_EXPR"
  | nameExpr => "NAME_EXPR"
  | missingExpr => "MISSING_EXPR"
  | unexpected => "UNEXPECTED"
  | tombstone => "TOMBSTONE"

/-- Reads a kind back from its written name. -/
def ofName? (s : String) : Option Kind := all.find? fun k => k.name == s

/-- Leaf kinds are exactly those up to the end-of-file marker. -/
def isToken (k : Kind) : Bool := k.number ≤ eof.number

/-- Interior kinds, collections included. -/
def isNode (k : Kind) : Bool := !k.isToken

/-- Kinds whose nodes repeat members instead of filling declared slots. -/
def isCollection : Kind → Bool
  | itemList | paramList | stmtList | argList | unexpected => true
  | _ => false

/-- Kinds that may stand where an expression is wanted. -/
def isExpr : Kind → Bool
  | binaryExpr | prefixExpr | parenExpr | callExpr | literalExpr | nameExpr | missingExpr => true
  | _ => false

/-- The spelling of a kind that can only be spelled one way. -/
def fixedText? : Kind → Option String
  | lParen => some "("
  | rParen => some ")"
  | lBrace => some "\x7b"
  | rBrace => some "\x7d"
  | comma => some ","
  | colon => some ":"
  | arrow => some "->"
  | eq => some "="
  | plus => some "+"
  | minus => some "-"
  | star => some "*"
  | slash => some "/"
  | funcKw => some "func"
  | letKw => some "let"
  | returnKw => some "return"
  | _ => none

/-- What a reader of a message calls an element of this kind. -/
def describe (k : Kind) : String :=
  match k.fixedText? with
  | some text => text
  | none =>
    match k with
    | ident => "identifier"
    | intNumber => "integer literal"
    | unknown => "unknown character"
    | eof => "end of file"
    | sourceFile => "source file"
    | funcDecl => "function declaration"
    | paramClause => "parameter clause"
    | param => "parameter"
    | returnClause => "return clause"
    | typeName => "type"
    | codeBlock => "code block"
    | letDecl => "variable declaration"
    | typeAscription => "type annotation"
    | initializerClause => "initializer"
    | returnStmt => "return statement"
    | exprStmt => "expression statement"
    | argClause => "argument clause"
    | arg => "argument"
    | itemList | paramList | stmtList | argList => "list"
    | unexpected => "unexpected text"
    | tombstone => "tombstone"
    | _ => "expression"

end Kind

end Verbatim
