import Verbatim.View.Children

/-!
# Finding elements by offset

An offset between two tokens touches both of them; elsewhere it touches at most one. Empty elements
are never found by offset. A range is covered by a chain of elements, of which the deepest is found.
-/

namespace Verbatim

/-- The tokens that touch an offset. -/
inductive TokensAt where
  /-- No token touches the offset. -/
  | none
  /-- One token touches the offset. -/
  | single (token : View)
  /-- The offset is where one token ends and the next one starts. -/
  | between (left right : View)

namespace TokensAt

/-- The touching tokens in order. -/
def toList : TokensAt → List View
  | none => []
  | single t => [t]
  | between l r => [l, r]

/-- The touching token, the left one of two. -/
def left? : TokensAt → Option View
  | none => Option.none
  | single t => some t
  | between l _ => some l

/-- The touching token, the right one of two. -/
def right? : TokensAt → Option View
  | none => Option.none
  | single t => some t
  | between _ r => some r

/-- Puts what was found on the left and on the right together. -/
def join : Option View → Option View → TokensAt
  | some l, some r => between l r
  | some t, Option.none => single t
  | Option.none, some t => single t
  | Option.none, Option.none => none

end TokensAt

namespace View

/-- Whether an element has text that touches an offset. -/
def touches (v : View) (offset : Nat) : Bool := !v.span.isEmpty && v.span.touches offset

/-- The tokens of an element that touch an offset. At most two children touch it. -/
def tokensAt (v : View) (offset : Nat) : TokensAt :=
  if v.isNode then
    if v.touches offset then
      match h : v.children.filter (·.touches offset) with
      | [] => .none
      | [only] =>
        have : only ∈ v.children := (List.mem_filter.mp (h ▸ List.mem_cons_self)).1
        only.tokensAt offset
      | left :: right :: others =>
        have : left ∈ v.children := (List.mem_filter.mp (h ▸ List.mem_cons_self)).1
        have : right ∈ v.children :=
          (List.mem_filter.mp (h ▸ List.mem_cons_of_mem left List.mem_cons_self)).1
        .join (left.tokensAt offset).left? (right.tokensAt offset).right?
    else .none
  else .single v
termination_by v.green.size
decreasing_by all_goals exact size_lt_of_mem_children ‹_›

/-- Whether an element covers a range; an empty element covers empty ranges only. -/
def covers (v : View) (range : Text.Span) : Bool :=
  v.span.covers range && (!v.span.isEmpty || range.isEmpty)

/-- The deepest element that covers a range, found by following the first child that does. -/
def covering (v : View) (range : Text.Span) : View :=
  match h : v.children.find? (·.covers range) with
  | none => v
  | some c =>
    have : c ∈ v.children := List.mem_of_find?_eq_some h
    c.covering range
termination_by v.green.size
decreasing_by exact size_lt_of_mem_children ‹_›

end View

end Verbatim
