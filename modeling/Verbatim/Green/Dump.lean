import Verbatim.Green
import Verbatim.Text.Quoted

/-!
# Dumps of green elements

The written form of elements on their own: tokens with their text, nodes with everything in their
slots. Trivia is written apart from the token it belongs to.
-/

namespace Verbatim

/-- A record as it is written in dumps. -/
def renderRecord (name : String) (fields : List (String × String)) : String :=
  let parts := fields.map fun (field, value) => field ++ ": " ++ value
  name ++ " \x7b " ++ ", ".intercalate parts ++ " \x7d"

/-- A list as it is written in dumps. -/
def renderItems (items : List String) : String := "[" ++ ", ".intercalate items ++ "]"

/-- The written form of a piece of trivia. -/
def TriviaPiece.renderDebug (p : TriviaPiece) : String :=
  renderRecord "TriviaPiece" [("kind", p.kind.name), ("len", toString p.length)]

/-- The written form of the trivia on one side of a token. -/
def TriviaPiece.renderAll (pieces : List TriviaPiece) : String :=
  renderRecord "GreenTrivia"
    [("pieces", renderItems (pieces.map renderDebug)),
      ("total_len", toString (TriviaPiece.total pieces))]

/-- The written form of a token. -/
def TokenData.renderDebug (d : TokenData) : String :=
  renderRecord "GreenToken"
    [("kind", d.kind.name), ("presence", d.presence.name), ("text", Text.quote d.text)]

mutual
/-- The written form of an element. -/
def Green.renderDebug : Green → String
  | .token t => t.data.renderDebug
  | .node h slots =>
    renderRecord "GreenNode"
      [("kind", h.kind.name), ("presence", h.presence.name), ("width", toString h.width),
        ("slots", renderItems (Green.renderSlots slots))]
/-- The written forms of slots. -/
def Green.renderSlots : List Slot → List String
  | [] => []
  | none :: slots => "None" :: Green.renderSlots slots
  | some (.token t) :: slots => s!"Some(Token({t.data.renderDebug}))" :: Green.renderSlots slots
  | some (.node h inner) :: slots =>
    s!"Some(Node({Green.renderDebug (.node h inner)}))" :: Green.renderSlots slots
end

end Verbatim
