import Verbatim.Fault
import Verbatim.Trivia
import Verbatim.Text.Cut

/-!
# Green elements

A green element is a token or a node that knows its kind, its children and its width, but not where
it stands; the same element may stand in many trees at once. Every element carries the identity that
its store gave it. Two elements are the same element when their identities agree, and equal by value
when they agree in everything else.
-/

namespace Verbatim

/-- The identity of a green element: the store that made it and its number there. -/
structure Ident where
  /-- The store that made the element. -/
  store : Nat
  /-- How many elements that store had made before. -/
  serial : Nat
  deriving DecidableEq, Hashable, Repr, Inhabited

/-- Whether an element was read from text or stands in for one that is required. -/
inductive Presence where
  | present | missing
  deriving DecidableEq, Hashable, Repr, Inhabited

/-- The written name of a presence. -/
def Presence.name : Presence → String
  | present => "Present"
  | missing => "Missing"

/-- Everything about a token but its identity. -/
structure TokenData where
  /-- What the token is. -/
  kind : Kind
  /-- Whether it was read or stands in. -/
  presence : Presence
  /-- Leading trivia, content and trailing trivia. -/
  text : String
  /-- The pieces at the front of the text that are trivia. -/
  leading : List TriviaPiece
  /-- The pieces at the back of the text that are trivia. -/
  trailing : List TriviaPiece
  deriving DecidableEq, Hashable, Repr, Inhabited

namespace TokenData

/-- Number of bytes, trivia included. -/
def width (d : TokenData) : Nat := d.text.utf8ByteSize

/-- Number of bytes of leading trivia. -/
def leadingWidth (d : TokenData) : Nat := TriviaPiece.total d.leading

/-- Number of bytes of trailing trivia. -/
def trailingWidth (d : TokenData) : Nat := TriviaPiece.total d.trailing

/-- The bytes of the text from one offset to another. -/
def cut (d : TokenData) (start stop : Nat) : Except Fault String :=
  match Text.slice? d.text start stop with
  | some part => .ok part
  | none => .error .cutCharacter

/-- The text without its trivia. -/
def trimmedText (d : TokenData) : Except Fault String :=
  d.cut d.leadingWidth (d.width - d.trailingWidth)

/-- The text of the leading trivia. -/
def leadingText (d : TokenData) : Except Fault String := d.cut 0 d.leadingWidth

/-- The text of the trailing trivia. -/
def trailingText (d : TokenData) : Except Fault String :=
  d.cut (d.width - d.trailingWidth) d.width

end TokenData

/-- A token with its identity. -/
structure GreenToken where
  /-- Which token it is. -/
  id : Ident
  /-- What it is. -/
  data : TokenData
  deriving DecidableEq, Repr, Inhabited

/-- Everything about a node but its slots. -/
structure NodeHead where
  /-- Which node it is. -/
  id : Ident
  /-- What it is. -/
  kind : Kind
  /-- Whether it was read or stands in. -/
  presence : Presence
  /-- Number of bytes of its text, computed when the node was made. -/
  width : Nat
  /-- Whether the node or something below it is missing or unexpected, computed likewise. -/
  hasError : Bool
  deriving DecidableEq, Repr, Inhabited

/-- A token, or a node with its slots; an empty slot is `none`. -/
inductive Green where
  | token (token : GreenToken)
  | node (head : NodeHead) (slots : List (Option Green))
  deriving Inhabited

/-- What a slot holds. -/
abbrev Slot := Option Green

namespace Green

/-- Which element it is. -/
def id : Green → Ident
  | token t => t.id
  | node h _ => h.id

/-- What the element is. -/
def kind : Green → Kind
  | token t => t.data.kind
  | node h _ => h.kind

/-- Whether the element was read or stands in. -/
def presence : Green → Presence
  | token t => t.data.presence
  | node h _ => h.presence

/-- Whether the element stands in for one that is required. -/
def isMissing (g : Green) : Bool := g.presence == .missing

/-- Number of bytes of the element's text. -/
def width : Green → Nat
  | token t => t.data.width
  | node h _ => h.width

/-- Whether the element or something below it is missing or unexpected. -/
def hasError : Green → Bool
  | token t => t.data.presence == .missing
  | node h _ => h.hasError

/-- The slots of a node; a token has none. -/
def slots : Green → List Slot
  | token _ => []
  | node _ slots => slots

/-- Whether the element is a node. -/
def isNode : Green → Bool
  | token _ => false
  | node .. => true

/-- The token, if the element is one. -/
def token? : Green → Option GreenToken
  | token t => some t
  | node .. => none

/-- Whether two elements are the same element. -/
def same (a b : Green) : Bool := a.id == b.id

/-- The elements in the slots, in order. -/
def children (g : Green) : List Green := g.slots.filterMap fun slot => slot

/-- Sum of the widths of what stands in the slots. -/
def slotsWidth (slots : List Slot) : Nat := sumOf (fun slot => slot.elim 0 width) slots

/-- Offset of slot `index` from the start of the node; the slot after the last one is allowed. -/
def slotOffset (g : Green) (index : Nat) : Except Fault Nat :=
  if index ≤ g.slots.length then .ok (slotsWidth (g.slots.take index))
  else .error (.stopOutOfBounds index g.slots.length)

/-- What stands in slot `index`. -/
def slot (g : Green) (index : Nat) : Except Fault Slot :=
  match g.slots[index]? with
  | some slot => .ok slot
  | none => .error (.indexOutOfBounds g.slots.length index)

mutual
/-- Number of elements of a tree, itself included. -/
def size : Green → Nat
  | token _ => 1
  | node _ slots => 1 + sizeSlots slots
/-- Number of elements in some slots and below them. -/
def sizeSlots : List Slot → Nat
  | [] => 0
  | none :: slots => sizeSlots slots
  | some g :: slots => size g + sizeSlots slots
end

@[simp] theorem sizeSlots_append (a b : List Slot) :
    sizeSlots (a ++ b) = sizeSlots a + sizeSlots b := by
  induction a with
  | nil => simp [sizeSlots]
  | cons s rest ih =>
    cases s with
    | none => simp [sizeSlots, ih]
    | some g => simp [sizeSlots, ih, Nat.add_assoc]

/-- Every tree has at least one element. -/
theorem size_pos (g : Green) : 0 < g.size := by
  cases g with
  | token t => simp [size]
  | node h slots =>
    simp only [size]
    omega

/-- A slot's element is no larger than all slots together. -/
theorem size_le_sizeSlots {g : Green} {slots : List Slot} (h : some g ∈ slots) :
    g.size ≤ sizeSlots slots := by
  induction slots with
  | nil => cases h
  | cons s rest ih =>
    rcases List.mem_cons.mp h with rfl | hmem
    · simp only [sizeSlots]
      omega
    · have hle := ih hmem
      cases s with
      | none => simpa only [sizeSlots] using hle
      | some g' =>
        simp only [sizeSlots]
        omega

/-- An element in a slot is smaller than the node that holds it. -/
theorem size_lt_of_mem_slots {g parent : Green} (h : some g ∈ parent.slots) :
    g.size < parent.size := by
  cases parent with
  | token t => cases h
  | node head slots =>
    have hle : g.size ≤ sizeSlots slots := size_le_sizeSlots h
    simp only [size]
    omega

/-- Takes tokens off a list of slots still to be visited, in order. Nodes are opened in place, so
the depth of a tree does not matter. -/
def pendingTokens (work : List Slot) (found : Array GreenToken) : Array GreenToken :=
  match work with
  | [] => found
  | none :: rest => pendingTokens rest found
  | some (token t) :: rest => pendingTokens rest (found.push t)
  | some (node _ slots) :: rest => pendingTokens (slots ++ rest) found
termination_by (sizeSlots work, work.length)
decreasing_by
  · simp [sizeSlots, Prod.lex_def]
  · simp [sizeSlots, size, Prod.lex_def]
  · simp [sizeSlots, size, Prod.lex_def]

/-- The tokens of a tree in the order of the text, placeholders included. -/
def tokens (g : Green) : List GreenToken := (pendingTokens [some g] #[]).toList

/-- The text of a tree: the texts of its tokens in order. -/
def text (g : Green) : String := g.tokens.foldl (fun text t => text ++ t.data.text) ""

mutual
/-- Whether two elements are equal by value. Elements that are the same need no further look. -/
def sameValue : Green → Green → Bool
  | token a, token b => a.id == b.id || a.data == b.data
  | node a as, node b bs =>
    a.id == b.id ||
      (a.kind == b.kind && a.presence == b.presence && a.width == b.width &&
        a.hasError == b.hasError && sameSlots as bs)
  | _, _ => false
/-- Whether slots are equal by value, one by one. -/
def sameSlots : List Slot → List Slot → Bool
  | [], [] => true
  | none :: as, none :: bs => sameSlots as bs
  | some a :: as, some b :: bs => sameValue a b && sameSlots as bs
  | _, _ => false
end

mutual
/-- The paths, in order, of the topmost elements that two trees have in common at the same place. -/
def sharedPaths : Green → Green → List (List Nat)
  | token a, token b => if a.id = b.id then [[]] else []
  | node a as, node b bs => if a.id = b.id then [[]] else sharedSlots 0 as bs
  | _, _ => []
/-- The shared paths of slots that are numbered from `index` on. -/
def sharedSlots (index : Nat) : List Slot → List Slot → List (List Nat)
  | some a :: as, some b :: bs =>
    (sharedPaths a b).map (index :: ·) ++ sharedSlots (index + 1) as bs
  | _ :: as, _ :: bs => sharedSlots (index + 1) as bs
  | _, _ => []
end

end Green

end Verbatim
