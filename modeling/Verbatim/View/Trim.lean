import Verbatim.View.Walk

/-!
# Spans and texts without outer trivia

The trimmed span of a token leaves out its trivia. The trimmed span of a node runs from the content
of the first token that has any to the content of the last; a node without content is trimmed to an
empty span at its offset.
-/

namespace Verbatim.View

/-- The content of a token, without its trivia. -/
def trimmedText (v : View) : Except Fault String :=
  match v.green with
  | .token t => t.data.trimmedText
  | .node .. => return v.text

/-- Where the content of a token stands. -/
def contentSpan (v : View) : Text.Span :=
  match v.green with
  | .token t => ⟨v.span.start + t.data.leadingWidth, v.span.stop - t.data.trailingWidth⟩
  | .node .. => v.span

/-- The tokens below a view that have content. -/
def solidTokens (v : View) : Except Fault (List View) :=
  v.tokens.filterM fun t => return !(← t.trimmedText).isEmpty

/-- Where the element stands, outer trivia left out. -/
def trimmedSpan (v : View) : Except Fault Text.Span := do
  if v.isNode then
    let solid ← v.solidTokens
    match solid.head?, solid.getLast? with
    | some first, some last => return ⟨first.contentSpan.start, last.contentSpan.stop⟩
    | _, _ => return .emptyAt v.offset
  else return v.contentSpan

/-- The text of a node, outer trivia left out. -/
def innerText (v : View) : Except Fault String := do
  let span ← v.trimmedSpan
  match Text.slice? v.text (span.start - v.offset) (span.stop - v.offset) with
  | some part => return part
  | none => throw .cutCharacter

end Verbatim.View
