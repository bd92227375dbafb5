import Verbatim.KindSet

/-!
# Slot layouts

The layout of a kind says what the children of its nodes are: nothing for leaf kinds, one slot per
grammar field for most nodes, and any number of members for collections. The table below is the only
place that knows the fields; construction, edits, validation and typed reading all consult it.
-/

namespace Verbatim

/-- What one slot of a node may hold. -/
structure SlotSpec where
  /-- Name of the grammar field. -/
  label : String
  /-- Kinds that may occupy the slot. -/
  accepts : KindSet
  /-- Kind of the placeholder that stands in for a required element. -/
  placeholder : Kind
  /-- Whether the slot may stay empty. -/
  isOptional : Bool

namespace SlotSpec

/-- A slot that always holds an element of one kind. -/
def required (label : String) (kind : Kind) : SlotSpec := ⟨label, .ofList [kind], kind, false⟩

/-- A slot that is empty or holds an element of one kind. -/
def optional (label : String) (kind : Kind) : SlotSpec := ⟨label, .ofList [kind], kind, true⟩

/-- A slot that always holds an element of one of several kinds. -/
def oneOf (label : String) (accepts : KindSet) (placeholder : Kind) : SlotSpec :=
  ⟨label, accepts, placeholder, false⟩

/-- A slot that always holds an expression. -/
def expression (label : String) : SlotSpec := oneOf label .expressions .missingExpr

/-- A slot that is empty or holds an expression. -/
def optionalExpression (label : String) : SlotSpec := { expression label with isOptional := true }

/-- A slot for text that fits no field, empty when there is none. -/
def stray (label : String) : SlotSpec := optional label .unexpected

end SlotSpec

/-- The shape of the children of a kind. -/
inductive Layout where
  /-- A leaf has no children. -/
  | token
  /-- One slot per grammar field. -/
  | fixed (slots : List SlotSpec)
  /-- Any number of members of the given kinds. -/
  | collection (members : KindSet)

namespace Layout

/-- The declared slots; none for leaves and collections. -/
def slots : Layout → List SlotSpec
  | fixed slots => slots
  | token | collection _ => []

/-- The kinds a collection may repeat. -/
def members? : Layout → Option KindSet
  | collection members => some members
  | token | fixed _ => none

end Layout

namespace Kind

open SlotSpec in
/-- The layout that every node of a kind follows. -/
def layout : Kind → Layout
  | sourceFile => .fixed [required "items" itemList, required "eof" eof]
  | funcDecl => .fixed
      [required "func_kw" funcKw, required "name" ident, stray "unexpected_before_params",
        required "params" paramClause, SlotSpec.optional "return_clause" returnClause,
        required "body" codeBlock]
  | paramClause => .fixed
      [required "l_paren" lParen, required "params" paramList, stray "unexpected_before_r_paren",
        required "r_paren" rParen]
  | param => .fixed
      [required "name" ident, required "colon" colon, required "ty" typeName,
        SlotSpec.optional "trailing_comma" comma]
  | returnClause => .fixed [required "arrow" arrow, required "ty" typeName]
  | typeName => .fixed [required "name" ident]
  | codeBlock => .fixed
      [required "l_brace" lBrace, required "stmts" stmtList, required "r_brace" rBrace]
  | letDecl => .fixed
      [required "let_kw" letKw, required "name" ident,
        SlotSpec.optional "type_annotation" typeAscription,
        SlotSpec.optional "initializer" initializerClause]
  | typeAscription => .fixed [required "colon" colon, required "ty" typeName]
  | initializerClause => .fixed [required "eq" eq, expression "value"]
  | returnStmt => .fixed [required "return_kw" returnKw, optionalExpression "value"]
  | exprStmt => .fixed [expression "expr"]
  | binaryExpr => .fixed
      [expression "lhs", oneOf "op" .binaryOperators plus, expression "rhs"]
  | prefixExpr => .fixed [required "op" minus, expression "operand"]
  | parenExpr => .fixed
      [required "l_paren" lParen, expression "expr", required "r_paren" rParen]
  | callExpr => .fixed [expression "callee", required "args" argClause]
  | argClause => .fixed
      [required "l_paren" lParen, required "args" argList, required "r_paren" rParen]
  | arg => .fixed [expression "value", SlotSpec.optional "trailing_comma" comma]
  | literalExpr => .fixed [required "value" intNumber]
  | nameExpr => .fixed [required "name" ident]
  | missingExpr | tombstone => .fixed []
  | itemList => .collection (.ofList [funcDecl, letDecl, unexpected])
  | paramList => .collection (.ofList [param])
  | stmtList => .collection (.ofList [letDecl, returnStmt, exprStmt, unexpected])
  | argList => .collection (.ofList [arg])
  | unexpected => .collection .all
  | _ => .token

/-- The slots a node of this kind declares. -/
def slotSpecs (k : Kind) : List SlotSpec := k.layout.slots

/-- The collections are exactly the kinds with a collection layout. -/
theorem isSome_members?_layout (k : Kind) : k.layout.members?.isSome = k.isCollection := by
  cases k <;> rfl

end Kind

end Verbatim
