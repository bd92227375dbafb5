import Verbatim.Collection

/-!
# Typed reading

Nodes can be read through facades that know the grammar. A facade is one kind of node, or one of the
families of items, statements and expressions. A node that has the right kind gives access to its
fields by name; a field that is absent, or holds something else than it should, reads as nothing.
-/

namespace Verbatim

/-- What a reader may ask a node to be. -/
inductive Facade where
  /-- A node of one kind. -/
  | just (kind : Kind)
  /-- A top-level item. -/
  | item
  /-- A statement. -/
  | stmt
  /-- An expression. -/
  | expr
  deriving DecidableEq, Repr

/-- The name under which nodes of a kind are read; collections and leaves have none. -/
def Kind.facadeName? : Kind → Option String
  | sourceFile => some "SourceFile"
  | funcDecl => some "FuncDecl"
  | paramClause => some "ParamClause"
  | param => some "Param"
  | returnClause => some "ReturnClause"
  | typeName => some "TypeName"
  | codeBlock => some "CodeBlock"
  | letDecl => some "LetDecl"
  | typeAscription => some "TypeAnnotation"
  | initializerClause => some "InitializerClause"
  | returnStmt => some "ReturnStmt"
  | exprStmt => some "ExprStmt"
  | binaryExpr => some "BinaryExpr"
  | prefixExpr => some "PrefixExpr"
  | parenExpr => some "ParenExpr"
  | callExpr => some "CallExpr"
  | argClause => some "ArgClause"
  | arg => some "Arg"
  | literalExpr => some "LiteralExpr"
  | nameExpr => some "NameExpr"
  | missingExpr => some "MissingExpr"
  | unexpected => some "Unexpected"
  | _ => none

namespace Facade

/-- The members of a family, each with the name it goes by there. -/
def variants : Facade → List (Kind × String)
  | just _ => []
  | item => [(.funcDecl, "Func"), (.letDecl, "Let"), (.unexpected, "Unexpected")]
  | stmt =>
    [(.letDecl, "Let"), (.returnStmt, "Return"), (.exprStmt, "Expr"), (.unexpected, "Unexpected")]
  | expr =>
    [(.binaryExpr, "Binary"), (.prefixExpr, "Prefix"), (.parenExpr, "Paren"), (.callExpr, "Call"),
      (.literalExpr, "Literal"), (.nameExpr, "Name"), (.missingExpr, "Missing")]

/-- The name of a kind within a family. -/
def variant? (f : Facade) (kind : Kind) : Option String := f.variants.lookup kind

/-- Whether nodes of a kind can be read through a facade. -/
def accepts (f : Facade) (kind : Kind) : Bool :=
  match f with
  | just k => k == kind
  | _ => (f.variant? kind).isSome

/-- The families, with their names. -/
def families : List (String × Facade) := [("Item", item), ("Stmt", stmt), ("Expr", expr)]

/-- A node read through a facade, if its kind allows it. -/
def cast? (f : Facade) (v : View) : Option View :=
  if v.isNode && f.accepts v.kind then some v else none

/-- The names of all facades a kind can be read through, its own first. -/
def namesFor (kind : Kind) : List String :=
  kind.facadeName?.toList ++ (families.filter fun (_, f) => f.accepts kind).map (·.1)

end Facade

/-- A collection read as a list of nodes of one facade. -/
structure TypedList where
  /-- What the members are read as. -/
  member : Facade
  /-- The collection itself. -/
  collection : Collection

namespace TypedList

/-- The facades that the members of a list are read through, by name. -/
def memberFacades : List (String × Facade) :=
  [("Item", .item), ("Stmt", .stmt), ("Param", .just .param), ("Arg", .just .arg)]

/-- A view as a typed list, if its kind is a collection. -/
def ofView? (member : Facade) (v : View) : Option TypedList :=
  (Collection.ofView? v).map fun c => ⟨member, c⟩

/-- Number of members, of whatever kind. -/
def length (l : TypedList) : Nat := l.collection.length

/-- The member at an index, if it can be read. -/
def get? (l : TypedList) (index : Nat) : Option View :=
  (l.collection.get? index).bind l.member.cast?

/-- The members that can be read, first to last. -/
def toList (l : TypedList) : List View := l.collection.members.filterMap l.member.cast?

/-- The members that can be read, last to first. -/
def toListBack (l : TypedList) : List View := l.collection.membersBack.filterMap l.member.cast?

/-- Puts the outcome of an edit in the place of the collection. -/
def afterEdit (l : TypedList) (edit : Alloc Collection) : Alloc TypedList :=
  return { l with collection := ← edit }

/-- Adds a node at the end. -/
def appending (l : TypedList) (node : Green) : Alloc TypedList :=
  l.afterEdit (l.collection.appending node)

/-- Adds a node at the start. -/
def prepending (l : TypedList) (node : Green) : Alloc TypedList :=
  l.afterEdit (l.collection.prepending node)

/-- Adds a node so that it ends up at an index. -/
def inserting (l : TypedList) (index : Nat) (node : Green) : Alloc TypedList :=
  l.afterEdit (l.collection.inserting index node)

/-- Removes the member at an index. -/
def removing (l : TypedList) (index : Nat) : Alloc TypedList :=
  l.afterEdit (l.collection.removing index)

/-- Replaces the member at an index. -/
def replacing (l : TypedList) (index : Nat) (node : Green) : Alloc TypedList :=
  l.afterEdit (l.collection.replacing index node)

end TypedList

/-- What a field is read as. -/
inductive FieldType where
  /-- A token. -/
  | token
  /-- A node of a facade. -/
  | node (facade : Facade)
  /-- A collection of nodes of a facade. -/
  | list (member : Facade)
  /-- The members of the node itself, whatever they are. -/
  | members
  deriving DecidableEq, Repr

/-- A named field of a node. -/
structure Field where
  /-- The name of the field. -/
  name : String
  /-- The slot it is read from, unless it is read from the whole node. -/
  index : Nat
  /-- What it is read as. -/
  type : FieldType
  deriving DecidableEq, Repr

/-- What reading a field gives. -/
inductive FieldValue where
  /-- A token. -/
  | token (token : View)
  /-- A node of a facade. -/
  | node (facade : Facade) (node : View)
  /-- A typed list. -/
  | list (list : TypedList)
  /-- The members of the node itself. -/
  | members (collection : Collection)

open FieldType in
/-- The fields of the nodes of a kind, each with the slot it is read from. -/
def Kind.fields : Kind → List Field
  | sourceFile => [⟨"items", 0, list .item⟩, ⟨"eof", 1, token⟩]
  | funcDecl =>
    [⟨"func_kw", 0, token⟩, ⟨"name", 1, token⟩,
      ⟨"unexpected_before_params", 2, node (.just unexpected)⟩,
      ⟨"params", 3, node (.just paramClause)⟩, ⟨"return_clause", 4, node (.just returnClause)⟩,
      ⟨"body", 5, node (.just codeBlock)⟩]
  | paramClause =>
    [⟨"l_paren", 0, token⟩, ⟨"params", 1, list (.just param)⟩,
      ⟨"unexpected_before_r_paren", 2, node (.just unexpected)⟩, ⟨"r_paren", 3, token⟩]
  | param =>
    [⟨"name", 0, token⟩, ⟨"colon", 1, token⟩, ⟨"ty", 2, node (.just typeName)⟩,
      ⟨"trailing_comma", 3, token⟩]
  | returnClause => [⟨"arrow", 0, token⟩, ⟨"ty", 1, node (.just typeName)⟩]
  | typeName => [⟨"name", 0, token⟩]
  | codeBlock => [⟨"l_brace", 0, token⟩, ⟨"stmts", 1, list .stmt⟩, ⟨"r_brace", 2, token⟩]
  | letDecl =>
    [⟨"let_kw", 0, token⟩, ⟨"name", 1, token⟩,
      ⟨"type_annotation", 2, node (.just typeAscription)⟩,
      ⟨"initializer", 3, node (.just initializerClause)⟩]
  | typeAscription => [⟨"colon", 0, token⟩, ⟨"ty", 1, node (.just typeName)⟩]
  | initializerClause => [⟨"eq_token", 0, token⟩, ⟨"value", 1, node .expr⟩]
  | returnStmt => [⟨"return_kw", 0, token⟩, ⟨"value", 1, node .expr⟩]
  | exprStmt => [⟨"expr", 0, node .expr⟩]
  | binaryExpr => [⟨"lhs", 0, node .expr⟩, ⟨"op", 1, token⟩, ⟨"rhs", 2, node .expr⟩]
  | prefixExpr => [⟨"op", 0, token⟩, ⟨"operand", 1, node .expr⟩]
  | parenExpr => [⟨"l_paren", 0, token⟩, ⟨"expr", 1, node .expr⟩, ⟨"r_paren", 2, token⟩]
  | callExpr => [⟨"callee", 0, node .expr⟩, ⟨"args", 1, node (.just argClause)⟩]
  | argClause => [⟨"l_paren", 0, token⟩, ⟨"args", 1, list (.just arg)⟩, ⟨"r_paren", 2, token⟩]
  | arg => [⟨"value", 0, node .expr⟩, ⟨"trailing_comma", 1, token⟩]
  | literalExpr => [⟨"value", 0, token⟩]
  | nameExpr => [⟨"name", 0, token⟩]
  | unexpected => [⟨"elements", 0, members⟩]
  | _ => []

/-- Reads a field of a node. -/
def Field.read? (f : Field) (v : View) : Option FieldValue :=
  match f.type with
  | .token => (v.token? f.index).map .token
  | .node facade => ((v.node? f.index).bind facade.cast?).map (.node facade)
  | .list member => ((v.node? f.index).bind (TypedList.ofView? member)).map .list
  | .members => some (.members ⟨v⟩)

/-- A named change of one field of a node. -/
structure Setter where
  /-- The kind of node that has the field. -/
  owner : Kind
  /-- The slot that is changed. -/
  index : Nat
  /-- Whether the new content is a token; otherwise it is a node, or nothing. -/
  takesToken : Bool
  deriving DecidableEq, Repr

namespace Setter

/-- The changes that can be asked for by name. -/
def all : List (String × Setter) :=
  [("FuncDecl.with_name", ⟨.funcDecl, 1, true⟩),
    ("FuncDecl.with_return_clause", ⟨.funcDecl, 4, false⟩),
    ("FuncDecl.with_body", ⟨.funcDecl, 5, false⟩),
    ("LetDecl.with_type_annotation", ⟨.letDecl, 2, false⟩),
    ("LetDecl.with_initializer", ⟨.letDecl, 3, false⟩),
    ("BinaryExpr.with_lhs", ⟨.binaryExpr, 0, false⟩),
    ("BinaryExpr.with_rhs", ⟨.binaryExpr, 2, false⟩)]

/-- The change with a given name. -/
def ofName? (name : String) : Option Setter := all.lookup name

/-- Changes the field of a node. -/
def apply (s : Setter) (v : View) (slot : Slot) : Alloc View := v.replaceSlot s.index slot

end Setter

end Verbatim
