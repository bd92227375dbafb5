import Verbatim.View.Children

/-!
# Neighbours of a view

Siblings are the nearest present slots of the same parent. Neighbouring tokens are neighbours in the
order of the text, wherever they stand in the tree; placeholders count as tokens too.
-/

namespace Verbatim.View

/-- The present siblings after a view, nearest first. Empty slots are as wide as nothing, so the
first of them starts where the view ends. -/
def siblingsAfter : View → List View
  | root .. => []
  | child parent index offset green =>
    (placeSlots parent (index + 1) (offset + green.width)
      (parent.green.slots.drop (index + 1))).filterMap fun slot => slot

/-- The present siblings before a view, nearest first. -/
def siblingsBefore : View → List View
  | root .. => []
  | child parent index offset _ =>
    placeBack parent index offset (parent.green.slots.take index).reverse

/-- The nearest present sibling after a view. -/
def nextSibling? (v : View) : Option View := v.siblingsAfter.head?

/-- The nearest present sibling before a view. -/
def prevSibling? (v : View) : Option View := v.siblingsBefore.head?

/-- The first present child. -/
def firstChild? (v : View) : Option View := v.children.head?

/-- The last present child. -/
def lastChild? (v : View) : Option View := v.childrenBack.head?

/-- The first token below a node. -/
def firstToken? (v : View) : Option View :=
  v.children.attach.findSome? fun ⟨c, _⟩ => if c.isNode then firstToken? c else some c
termination_by v.green.size
decreasing_by
  next h _ => exact size_lt_of_mem_children h

/-- The last token below a node. -/
def lastToken? (v : View) : Option View :=
  v.childrenBack.attach.findSome? fun ⟨c, _⟩ => if c.isNode then lastToken? c else some c
termination_by v.green.size
decreasing_by
  next h _ => exact size_lt_of_mem_childrenBack h

/-- The view itself if it is a token, else the first token below it. -/
def firstTokenHere? (v : View) : Option View := if v.isNode then v.firstToken? else some v

/-- The view itself if it is a token, else the last token below it. -/
def lastTokenHere? (v : View) : Option View := if v.isNode then v.lastToken? else some v

/-- The next token in the order of the text that is not below the view. -/
def nextToken? : View → Option View
  | root .. => none
  | child parent index offset green =>
    match (child parent index offset green).siblingsAfter.findSome? firstTokenHere? with
    | some t => some t
    | none => nextToken? parent

/-- The previous token in the order of the text that is not below the view. -/
def prevToken? : View → Option View
  | root .. => none
  | child parent index offset green =>
    match (child parent index offset green).siblingsBefore.findSome? lastTokenHere? with
    | some t => some t
    | none => prevToken? parent

end Verbatim.View
