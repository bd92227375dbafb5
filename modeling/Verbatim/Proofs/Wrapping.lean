import Verbatim.Proofs.Flattening
import Verbatim.Proofs.Lexing
import Verbatim.Proofs.Building
import Verbatim.Proofs.Resolution

/-!
# Wrapping

The operations of a parser say how a tree grows: nodes are opened, filled and closed, and a node can
be opened around an element that is complete already. Here is what they mean, on a stack of open
nodes with their children and without events or positions. Whatever operations are legal there, the
parser performs them, its events can be resolved, and the steps build the tree that was meant. What
carries the proof is that at every moment the events write down the children of the open nodes, one
piece for each child.
-/

namespace Verbatim

/-- An operation of a parser that writes something down. -/
inductive Operation where
  /-- Opens a node. -/
  | start
  /-- Consumes the next token. -/
  | token
  /-- Consumes the end of the text. -/
  | endOfText
  /-- Stands in for an element that is not there. -/
  | missing (kind : Kind)
  /-- Leaves a slot empty. -/
  | absent
  /-- Closes the innermost open node. -/
  | complete (kind : Kind)
  /-- Opens a node around the element of the innermost open node that was completed last. -/
  | precede
  deriving DecidableEq, Repr

/-- Whether an operation opens a node. -/
def Operation.opens : Operation → Bool
  | .start | .precede => true
  | .token | .endOfText | .missing _ | .absent | .complete _ => false

/-- The operations that open nodes have numbers of 32 bits. -/
def Operation.Fit (operations : List Operation) : Prop :=
  ∀ (i : Nat) (o : Operation), operations[i]? = some o → o.opens = true → i < UInt32.size

/-- What the caller of the operations keeps. -/
structure Hand where
  /-- The markers of the open nodes, innermost first. -/
  opened : List Marker := []
  /-- The element of the innermost open node that was completed last, unless it was given a
  parent. -/
  last : Option Completed := none

/-- Lets a parser perform an operation. -/
def Operation.perform (hand : Hand) : Operation → Grammar Hand
  | .start => return ⟨(← Grammar.start) :: hand.opened, none⟩
  | .token => do
    Grammar.advance
    return hand
  | .endOfText => do
    Grammar.finishInput
    return hand
  | .missing kind => return ⟨hand.opened, some (← Grammar.missing kind)⟩
  | .absent => do
    Grammar.absent
    return hand
  | .complete kind =>
    match hand.opened with
    | [] => throw .brokenMarker
    | m :: opened => return ⟨opened, some (← Grammar.complete m kind)⟩
  | .precede =>
    match hand.last with
    | none => throw .brokenMarker
    | some c => return ⟨(← Grammar.precede c) :: hand.opened, none⟩

/-- Cuts a list in front of the last member that passes a test. -/
def cutAtLast {α : Type} (test : α → Bool) : List α → Option (List α × List α)
  | [] => none
  | a :: rest =>
    match cutAtLast test rest with
    | some halves => some (a :: halves.1, halves.2)
    | none => if test a then some ([], a :: rest) else none

/-- A stack of open nodes with their children. -/
structure Scaffold (α : Type) where
  /-- The open nodes, innermost first: the children that each was opened around, and the children
  that its parent had before it. -/
  opened : List (List α × List α) := []
  /-- The children that were added since the innermost node was opened. -/
  filled : List α := []

namespace Scaffold

variable {α : Type}

/-- Adds a child to the innermost open node. -/
def fill (s : Scaffold α) (a : α) : Scaffold α := { s with filled := s.filled ++ [a] }

/-- Opens a node. -/
def start (s : Scaffold α) : Scaffold α := ⟨([], s.filled) :: s.opened, []⟩

/-- Closes the innermost open node, and adds what is made of its children to its parent. -/
def close? (make : List α → Option α) (s : Scaffold α) : Option (Scaffold α) :=
  match s.opened with
  | [] => none
  | top :: outer => (make (top.1 ++ s.filled)).map fun a => ⟨outer, top.2 ++ [a]⟩

/-- Opens a node around the last child that passes a test; what follows this child comes along. -/
def wrap? (test : α → Bool) (s : Scaffold α) : Option (Scaffold α) :=
  (cutAtLast test s.filled).map fun halves => ⟨(halves.2, halves.1) :: s.opened, []⟩

end Scaffold

/-- The element for a token that was read. -/
def Token.green (t : Token) : Green := .token ⟨default, t.stored⟩

/-- Whether a slot was filled by completing a node or by a placeholder. -/
def Green.isCompleted (slot : Slot) : Bool := slot.any fun g => g.isNode || g.isMissing

/-- The node of a kind with the given slots, if the layout of the kind declares so many. -/
def Green.node? (kind : Kind) (slots : List Slot) : Option Slot :=
  if kind.isNode = true ∧ kind ≠ .tombstone ∧ kind.layout.isArity slots.length = true then
    some (some (assemble kind .present slots))
  else none

/-- The only node, if no node is open. -/
def Scaffold.root? (s : Scaffold Slot) : Option Green :=
  match s.opened, s.filled with
  | [], [some g] => if g.isNode then some g else none
  | _, _ => none

namespace Operation

/-- What an operation means for the tokens that are left and for the open nodes, if it is legal. -/
def mean? (eof : Token) (state : List Token × Scaffold Slot) :
    Operation → Option (List Token × Scaffold Slot)
  | .start => some (state.1, state.2.start)
  | .token =>
    match state.1 with
    | [] => none
    | t :: rest => some (rest, state.2.fill (some t.green))
  | .endOfText => if state.1.isEmpty then some (state.1, state.2.fill (some eof.green)) else none
  | .missing kind => some (state.1, state.2.fill (some (.blank kind)))
  | .absent => some (state.1, state.2.fill none)
  | .complete kind => (state.2.close? (Green.node? kind)).map fun s => (state.1, s)
  | .precede => (state.2.wrap? Green.isCompleted).map fun s => (state.1, s)

/-- The tree that operations mean, if they are legal and leave a single node. -/
def tree? (s : TokenStream) (operations : List Operation) : Option Green := do
  let state ← operations.foldlM (mean? s.eof) (s.tokens, {})
  state.2.root?

end Operation

section Cut

variable {α β : Type} {test : α → Bool}

/-- A list is cut at its last element if this passes, and otherwise as without it. -/
theorem cutAtLast_append (test : α → Bool) (as : List α) (a : α) :
    cutAtLast test (as ++ [a]) =
      if test a then some (as, [a])
      else (cutAtLast test as).map fun halves => (halves.1, halves.2 ++ [a]) := by
  induction as with
  | nil => cases h : test a <;> simp [cutAtLast, h]
  | cons b as ih =>
    rw [List.cons_append, cutAtLast, ih]
    cases h : test a with
    | true => simp
    | false =>
      cases hcut : cutAtLast test as with
      | some halves => simp [cutAtLast, hcut]
      | none => cases hb : test b <;> simp [cutAtLast, hcut, hb]

/-- Cutting a list of values of a function is cutting before it. -/
theorem cutAtLast_map (test : β → Bool) (f : α → β) (as : List α) :
    cutAtLast test (as.map f) =
      (cutAtLast (fun a => test (f a)) as).map fun halves =>
        (halves.1.map f, halves.2.map f) := by
  induction as with
  | nil => rfl
  | cons a as ih =>
    rw [List.map_cons, cutAtLast, ih, cutAtLast]
    cases cutAtLast (fun a => test (f a)) as with
    | some halves => rfl
    | none => cases h : test (f a) <;> simp

/-- The second half starts with the last member that passes. -/
theorem of_cutAtLast_eq_some {as : List α} {halves : List α × List α}
    (h : cutAtLast test as = some halves) :
    as = halves.1 ++ halves.2 ∧ ∃ a rest, halves.2 = a :: rest ∧ test a = true := by
  induction as generalizing halves with
  | nil => cases h
  | cons a as ih =>
    rw [cutAtLast] at h
    cases hcut : cutAtLast test as with
    | some inner =>
      rw [hcut] at h
      obtain rfl := Option.some.inj h
      obtain ⟨heq, hsecond⟩ := ih hcut
      exact ⟨congrArg (a :: ·) heq, hsecond⟩
    | none =>
      rw [hcut] at h
      obtain ⟨ha, hhalves⟩ := Option.ite_none_right_eq_some.mp h
      obtain rfl := Option.some.inj hhalves
      exact ⟨rfl, a, as, rfl, ha⟩

end Cut

/-- A token that was read is spelled. -/
theorem Token.isSpelled_stored (t : Token) (h : t.kind.isToken = true) :
    t.stored.isSpelled = true := by
  have hkind : t.stored.kind.isToken = true := h
  have hpresent : t.stored.presence = .present := rfl
  simp [TokenData.isSpelled, hkind, hpresent, t.trivia_le_width]

/-- A child with the piece that writes it down. -/
structure Cell (text : String) where
  /-- The child. -/
  slot : Slot
  /-- What writes it down. -/
  piece : Piece
  resolves : Event.Resolves text piece
  steps_eq : piece.steps = Green.flattenAll [slot]
  buildable : ∀ g, slot = some g → g.Buildable
  linkable : Green.isCompleted slot = true → piece.Linkable

namespace Cell

variable {text : String}

/-- The events that write some children down. -/
def eventsOf (cells : List (Cell text)) : List Event := Piece.eventsOf (cells.map piece)

/-- The events of the children a node was opened around: the first of them is linked to the node. -/
def linkedEvents : List (Cell text) → List Event
  | [] => []
  | first :: between =>
    first.piece.events (some (first.piece.distance (eventsOf between).length)) ++ eventsOf between

theorem eventsOf_cons (c : Cell text) (cells : List (Cell text)) :
    eventsOf (c :: cells) = c.piece.events none ++ eventsOf cells := rfl

theorem eventsOf_append (a b : List (Cell text)) :
    eventsOf (a ++ b) = eventsOf a ++ eventsOf b := by
  simp [eventsOf, Piece.eventsOf]

/-- The steps of the pieces are those of the slots they stand for. -/
theorem stepsOf_map_piece (cells : List (Cell text)) :
    Piece.stepsOf (cells.map piece) = Green.flattenAll (cells.map slot) := by
  induction cells with
  | nil => rfl
  | cons c cells ih =>
    rw [List.map_cons, Piece.stepsOf_cons, ih, c.steps_eq, ← Green.flattenAll_append]
    rfl

/-- The events of every cell resolve to its steps. -/
theorem forall_resolves (cells : List (Cell text)) : ∀ p ∈ cells.map piece, Event.Resolves text p :=
  List.forall_mem_map.mpr fun c _ => c.resolves

/-- A token that was read. -/
def token (t : Token) (h : t.stored.isSpelled = true) (ht : t.Placed text) : Cell text where
  slot := some t.green
  piece := .leaf (.token t) t.step
  resolves := Event.resolves_token ht
  steps_eq := rfl
  buildable _ hg := Option.some.inj hg ▸ .token h
  linkable h := absurd h Bool.false_ne_true

/-- An empty slot. -/
def absent : Cell text where
  slot := none
  piece := .leaf .absent .absent
  resolves := Event.resolves_leaf fun _ _ _ _ => rfl
  steps_eq := rfl
  buildable _ hg := by cases hg
  linkable h := absurd h Bool.false_ne_true

/-- A placeholder. -/
def missing (kind : Kind) : Cell text where
  slot := some (.blank kind)
  piece := .missing kind
  resolves := Event.resolves_missing kind
  steps_eq := by
    rw [Green.flattenAll, Green.flatten_of_isMissing (Green.isMissing_blank kind), Green.kind_blank]
    rfl
  buildable _ hg := Option.some.inj hg ▸ .blank (Green.value_blank kind)
  linkable _ := Piece.linkable_missing kind

/-- What writes a node down, given the children it was opened around and the others. -/
def joinPiece (kind : Kind) : List (Cell text) → List (Cell text) → Piece
  | [], filled => .node kind (filled.map piece)
  | first :: between, filled =>
    .late kind first.piece (between.map piece) (filled.map piece)

section Join

variable {kind : Kind} {around filled : List (Cell text)}

/-- The events of a node that was opened around cells resolve to the steps of the node. -/
theorem resolves_joinPiece (hkind : kind ≠ .tombstone)
    (hlink : ∀ first ∈ around.head?, first.piece.Linkable) :
    Event.Resolves text (joinPiece kind around filled) := by
  cases around with
  | nil => exact Event.resolves_node hkind (forall_resolves filled)
  | cons first between =>
    exact Event.resolves_late hkind (hlink first rfl) first.resolves (forall_resolves between)
      (forall_resolves filled)

/-- A node may be given a parent in turn. -/
theorem linkable_joinPiece : (joinPiece kind around filled).Linkable := by
  cases around with
  | nil => exact Piece.linkable_node kind _
  | cons first between => exact Piece.linkable_late kind first.piece _ _

/-- The start of the node stands after the events of the cells that it was opened around. -/
theorem marker_joinPiece :
    (joinPiece kind around filled).marker = (linkedEvents around).length := by
  cases around with
  | nil => rfl
  | cons first between => simp [joinPiece, linkedEvents, eventsOf, Piece.late]

/-- The events of the node: those of the cells before it, its start, those of the other cells, its
end. -/
theorem events_joinPiece :
    (joinPiece kind around filled).events none =
      linkedEvents around ++ .start kind none :: (eventsOf filled ++ [.finish]) := by
  cases around with
  | nil => rfl
  | cons first between => simp [joinPiece, linkedEvents, eventsOf, Piece.late]

/-- The steps of the node are those of all its cells between its start and its end. -/
theorem steps_joinPiece :
    (joinPiece kind around filled).steps =
      .start kind :: (Green.flattenAll ((around ++ filled).map slot) ++ [.finish]) := by
  rw [← stepsOf_map_piece]
  cases around with
  | nil => rfl
  | cons first between => simp [joinPiece, Piece.late, Piece.stepsOf]

/-- A node, given the children it was opened around and the others. -/
def join (hnode : kind.isNode = true) (hkind : kind ≠ .tombstone)
    (harity : kind.layout.isArity ((around ++ filled).map slot).length = true)
    (hlink : ∀ first ∈ around.head?, first.piece.Linkable) : Cell text where
  slot := some (.assemble kind .present ((around ++ filled).map slot))
  piece := joinPiece kind around filled
  resolves := resolves_joinPiece hkind hlink
  steps_eq := by
    rw [steps_joinPiece, Green.flattenAll, Green.assemble, Green.flatten,
      if_neg (fun h => by cases h), Green.flattenAll, List.append_nil]
  buildable _ hg := by
    obtain rfl := Option.some.inj hg
    refine .node hnode harity fun g hg => ?_
    obtain ⟨c, -, hc⟩ := List.mem_map.mp hg
    exact c.buildable g hc
  linkable _ := linkable_joinPiece

end Join

end Cell

namespace Scaffold

variable {text : String}

/-- The events of the open nodes and of what stands before them. -/
def openedEvents : List (List (Cell text) × List (Cell text)) → List Event
  | [] => []
  | top :: outer =>
    openedEvents outer ++ Cell.eventsOf top.2 ++ Cell.linkedEvents top.1 ++ [.unnamed]

/-- The markers of the open nodes. -/
def markers : List (List (Cell text) × List (Cell text)) → List Marker
  | [] => []
  | top :: outer =>
    ⟨(openedEvents outer ++ Cell.eventsOf top.2 ++ Cell.linkedEvents top.1).length.toUInt32⟩ ::
      markers outer

/-- The events that write the open nodes and their children down. -/
def events (c : Scaffold (Cell text)) : List Event :=
  openedEvents c.opened ++ Cell.eventsOf c.filled

/-- The children without what writes them down. -/
def slots (c : Scaffold (Cell text)) : Scaffold Slot :=
  ⟨c.opened.map fun top => (top.1.map Cell.slot, top.2.map Cell.slot), c.filled.map Cell.slot⟩

/-- Cuts the children of the innermost node in front of the one that was completed last. -/
def cut (c : Scaffold (Cell text)) : Option (List (Cell text) × List (Cell text)) :=
  cutAtLast (fun cell => Green.isCompleted cell.slot) c.filled

@[simp] theorem events_mk (opened : List (List (Cell text) × List (Cell text)))
    (filled : List (Cell text)) :
    events ⟨opened, filled⟩ = openedEvents opened ++ Cell.eventsOf filled := rfl

/-- What is filled in is written down last. -/
@[simp] theorem events_fill (c : Scaffold (Cell text)) (cell : Cell text) :
    (c.fill cell).events = c.events ++ cell.piece.events none := by
  simp [events, fill, Cell.eventsOf, Piece.eventsOf]

@[simp] theorem slots_fill (c : Scaffold (Cell text)) (cell : Cell text) :
    (c.fill cell).slots = c.slots.fill cell.slot := by
  simp [slots, fill]

/-- The only node was written down as one child. -/
theorem of_root?_slots_eq_some {c : Scaffold (Cell text)} {g : Green} (h : c.slots.root? = some g) :
    ∃ cell : Cell text, c = ⟨[], [cell]⟩ ∧ cell.slot = some g ∧ g.isNode = true := by
  obtain ⟨opened, filled⟩ := c
  unfold root? at h
  split at h
  · next g' hopened hfilled =>
    obtain ⟨hnode, hg⟩ := Option.ite_none_right_eq_some.mp h
    obtain rfl := Option.some.inj hg
    obtain rfl : opened = [] := List.map_eq_nil_iff.mp hopened
    obtain ⟨cell, rfl, hcell⟩ := List.map_eq_singleton_iff.mp hfilled
    exact ⟨cell, rfl, hcell, hnode⟩
  · cases h

/-- The first of the children that a node was opened around can be told about the node. -/
def Linkable (opened : List (List (Cell text) × List (Cell text))) : Prop :=
  ∀ top ∈ opened, ∀ first ∈ top.1.head?, first.piece.Linkable

/-- The events of a parser write open nodes and their children down, and the markers that are kept
point at the starts of these nodes and at the child that was completed last. -/
structure Written (c : Scaffold (Cell text)) (x : Parser) (hand : Hand) : Prop where
  events_eq : x.events.toList = c.events
  fits : Event.Fits c.events
  opened_eq : hand.opened = markers c.opened
  last_eq : ∀ before first between, c.cut = some (before, first :: between) →
    hand.last = some ⟨((openedEvents c.opened ++ Cell.eventsOf before).length +
      first.piece.marker).toUInt32⟩
  linkable : Linkable c.opened

section Written

variable {x y : Parser} {hand : Hand} {c : Scaffold (Cell text)}

/-- Writing down a child that is not completed leaves the markers as they are. -/
theorem Written.fill {cell : Cell text} {e : Event} (h : c.Written x hand)
    (hcell : cell.piece.events none = [e]) (he : e.bare ≠ .unnamed)
    (hopen : Green.isCompleted cell.slot = false) (hy : y.events = x.events.push e) :
    (c.fill cell).Written y hand where
  events_eq := by rw [hy, Array.toList_push, h.events_eq, events_fill, hcell]
  fits := by
    rw [events_fill, hcell]
    exact (Event.fits_append_iff he).mpr h.fits
  opened_eq := h.opened_eq
  last_eq before first between hcut := by
    have hsplit := cutAtLast_append (fun cell => Green.isCompleted cell.slot) c.filled cell
    rw [if_neg (by simp [hopen])] at hsplit
    obtain ⟨⟨before', around⟩, hcut', hhalves⟩ :=
      Option.map_eq_some_iff.mp (hsplit.symm.trans hcut)
    obtain ⟨-, first', rest, rfl, -⟩ := of_cutAtLast_eq_some hcut'
    cases hhalves
    exact h.last_eq _ _ rest hcut'
  linkable := h.linkable

/-- Writing down a completed child marks it. -/
theorem written_fill_completed {cell : Cell text} (hdone : Green.isCompleted cell.slot = true)
    (hy : y.events.toList = (c.fill cell).events) (hfits : Event.Fits (c.fill cell).events)
    (hlink : Linkable c.opened) :
    (c.fill cell).Written y
      ⟨markers c.opened, some ⟨(c.events.length + cell.piece.marker).toUInt32⟩⟩ where
  events_eq := hy
  fits := hfits
  opened_eq := rfl
  last_eq before first between hcut := by
    have hsplit := cutAtLast_append (fun cell => Green.isCompleted cell.slot) c.filled cell
    rw [if_pos hdone] at hsplit
    cases hsplit.symm.trans hcut
    rfl
  linkable := hlink

/-- Writing down the start of a node after the children it is opened around. -/
theorem written_start {before around : List (Cell text)}
    {opened : List (List (Cell text) × List (Cell text))} {n : Nat}
    (hy : y.events.toList =
      openedEvents opened ++ Cell.eventsOf before ++ Cell.linkedEvents around ++ [.unnamed])
    (hn : y.events.size = n + 1) (hfits : Event.Fits y.events.toList)
    (hfirst : ∀ first ∈ around.head?, first.piece.Linkable) (hlink : Linkable opened) :
    Written ⟨(around, before) :: opened, []⟩ y ⟨⟨n.toUInt32⟩ :: markers opened, none⟩ where
  events_eq := hy.trans (List.append_nil _).symm
  fits := by
    rw [events_mk, openedEvents, ← hy]
    exact (List.append_nil _).symm ▸ hfits
  opened_eq := by
    have hsize := congrArg List.length hy
    rw [Array.length_toList, List.length_append, List.length_singleton, hn] at hsize
    rw [Nat.add_right_cancel hsize, markers]
  last_eq before first between hcut := by cases hcut
  linkable top htop := by
    rcases List.mem_cons.mp htop with rfl | htop
    · exact hfirst
    · exact hlink top htop

/-- Closing the innermost node makes a child of its parent. -/
theorem Written.complete {top : List (Cell text) × List (Cell text)}
    {outer : List (List (Cell text) × List (Cell text))} {filled : List (Cell text)}
    (h : Written ⟨top :: outer, filled⟩ x hand) {kind : Kind} {cell : Cell text}
    (hdone : Green.isCompleted cell.slot = true)
    (hcell : cell.piece = Cell.joinPiece kind top.1 filled) :
    ∃ m last y, hand.opened = m :: markers outer ∧ Grammar.complete m kind x = .ok (last, y) ∧
      (Scaffold.fill ⟨outer, top.2⟩ cell).Written y ⟨markers outer, some last⟩ ∧
      y.rest = x.rest ∧ y.eof = x.eof ∧ y.events.size = x.events.size + 1 := by
  let before := openedEvents outer ++ Cell.eventsOf top.2 ++ Cell.linkedEvents top.1
  have hevents : x.events.toList = before ++ .unnamed :: Cell.eventsOf filled := by
    rw [h.events_eq, events_mk, openedEvents]
    simp [before]
  have hsize : x.events.size = before.length + (Cell.eventsOf filled).length + 1 := by
    simpa [Nat.add_assoc] using congrArg List.length hevents
  have hfits : Event.Fits (before ++ .unnamed :: Cell.eventsOf filled) :=
    hevents ▸ h.events_eq ▸ h.fits
  have hrun := @Grammar.complete_eq x kind _ _ hevents hfits.length_lt
  have hmade : before ++ .start kind none :: (Cell.eventsOf filled ++ [.finish]) =
      (Scaffold.fill ⟨outer, top.2⟩ cell).events := by
    rw [events_fill, hcell, Cell.events_joinPiece]
    simp [before]
  refine ⟨_, _, _, h.opened_eq, hrun, ?_, rfl, rfl, ?_⟩
  · have hmark : before.length = (events ⟨outer, top.2⟩).length + cell.piece.marker := by
      rw [hcell, Cell.marker_joinPiece, ← List.length_append]
      rfl
    rw [hmark]
    exact written_fill_completed hdone hmade (hmade ▸ Event.fits_named_iff.mpr hfits)
      fun top htop => h.linkable top (List.mem_cons_of_mem _ htop)
  · simp only [Parser.rewritten, List.size_toArray, List.length_append, List.length_cons,
      List.length_nil]
    omega

/-- Opening a node around the child that was completed last takes what follows this child along. -/
theorem Written.precede {before between : List (Cell text)} {first : Cell text}
    (h : c.Written x hand) (hcut : c.cut = some (before, first :: between))
    (hlt : x.events.size < UInt32.size) :
    ∃ last m y, hand.last = some last ∧ Grammar.precede last x = .ok (m, y) ∧
      Written ⟨(first :: between, before) :: c.opened, []⟩ y ⟨m :: hand.opened, none⟩ ∧
      y.rest = x.rest ∧ y.eof = x.eof ∧ y.events.size = x.events.size + 1 := by
  obtain ⟨hfilled, _, _, hcons, hdone⟩ := of_cutAtLast_eq_some hcut
  cases hcons
  obtain ⟨front, back, head, hsplit, hmarker, hhead⟩ := first.linkable hdone
  obtain ⟨start, hstart⟩ : ∃ start, start = openedEvents c.opened ++ Cell.eventsOf before :=
    ⟨_, rfl⟩
  have hevents : x.events.toList =
      (start ++ front) ++ head none :: (back ++ Cell.eventsOf between) := by
    rw [h.events_eq, events, hfilled, Cell.eventsOf_append, Cell.eventsOf_cons, hsplit, hstart]
    simp
  have hsize : x.events.size =
      (start ++ front).length + (back ++ Cell.eventsOf between).length + 1 := by
    simpa [Nat.add_assoc] using congrArg List.length hevents
  have hcount : first.piece.count = front.length + back.length + 1 := by
    rw [← first.piece.length_events none, hsplit]
    simp [Nat.add_assoc]
  have hdistance : (x.events.size - (start ++ front).length).toUInt32 =
      first.piece.distance (Cell.eventsOf between).length := by
    have heq : x.events.size - (start ++ front).length =
        first.piece.count - first.piece.marker + (Cell.eventsOf between).length := by
      simp only [List.length_append] at hsize ⊢
      omega
    rw [heq, Piece.distance]
  have hrun := Grammar.precede_eq hevents hhead hlt
  rw [hdistance] at hrun
  have hlast := h.last_eq before first between hcut
  rw [← hstart, ← hmarker, ← List.length_append] at hlast
  refine ⟨_, _, _, hlast, hrun, ?_, rfl, rfl, ?_⟩
  · rw [h.opened_eq]
    refine written_start ?_ ?_ ?_ ?_ h.linkable
    · simp [Parser.rewritten, Cell.linkedEvents, hsplit, hstart]
    · simp only [Parser.rewritten, List.size_toArray, List.length_append, List.length_cons,
        List.length_nil] at hsize ⊢
      omega
    · refine (Event.fits_linked_iff hhead).mpr ?_
      rw [← hevents, Array.length_toList]
      exact ⟨h.events_eq ▸ h.fits, hlt⟩
    · intro first' hfirst
      obtain rfl := Option.some.inj hfirst
      exact first.linkable hdone
  · simp only [Parser.rewritten, List.size_toArray, List.length_append, List.length_cons,
      List.length_nil] at hsize ⊢
    omega

end Written

end Scaffold

namespace Operation

/-- A parser has performed operations: what they mean for the tokens that are left and for the open
nodes is what the parser has left and what its events write down. -/
structure Performed (text : String) (s : TokenStream) (state : List Token × Scaffold Slot)
    (hand : Hand) (x : Parser) : Prop where
  eof_eq : x.eof = s.eof
  rest_eq : x.rest = state.1
  legible : ∀ t ∈ state.1 ++ [s.eof], t.stored.isSpelled = true ∧ t.Placed text
  written : ∃ c : Scaffold (Cell text), state.2 = c.slots ∧ c.Written x hand

/-- A parser at the start of a text has performed nothing. -/
theorem performed_ofStream (text : String) :
    Performed text (tokenize text) ((tokenize text).tokens, {}) {} (.ofStream (tokenize text)) where
  eof_eq := rfl
  rest_eq := rfl
  legible t ht := by
    refine ⟨t.isSpelled_stored ?_, placed_of_mem_tokenize text t ht⟩
    rcases List.mem_append.mp ht with ht | ht
    · exact (solid_of_mem_tokenize text t ht).isToken
    · rw [List.mem_singleton.mp ht, (final_tokenize text).eq_eof]
      rfl
  written := ⟨{}, rfl, rfl, Event.fits_of_length_le (Nat.zero_le _), rfl,
    fun _ _ _ hcut => (by cases hcut), fun _ htop => absurd htop List.not_mem_nil⟩

section Steps

variable {text : String} {s : TokenStream} {state : List Token × Scaffold Slot} {hand : Hand}
  {x : Parser}

/-- The next operation is performed, and what it means comes about. -/
def Steps (text : String) (s : TokenStream) (state : List Token × Scaffold Slot)
    (hand : Hand) (x : Parser) (o : Operation) : Prop :=
  ∃ hand' y, o.perform hand x = .ok (hand', y) ∧ Performed text s state hand' y ∧
    y.events.size = x.events.size + 1

/-- A token is read into the next slot. -/
theorem Performed.fill_token (h : Performed text s state hand x) {t : Token} {y : Parser}
    {rest : List Token} (ht : t.stored.isSpelled = true ∧ t.Placed text) (heof : y.eof = x.eof)
    (hrest : y.rest = rest) (hsub : ∀ u ∈ rest, u ∈ state.1)
    (hy : y.events = x.events.push (.token t)) :
    Performed text s (rest, state.2.fill (some t.green)) hand y where
  eof_eq := heof.trans h.eof_eq
  rest_eq := hrest
  legible u hu := by
    refine h.legible u ?_
    rcases List.mem_append.mp hu with hu | hu
    · exact List.mem_append_left _ (hsub u hu)
    · exact List.mem_append_right _ hu
  written := by
    obtain ⟨c, hslots, hc⟩ := h.written
    refine ⟨c.fill (.token t ht.1 ht.2), ?_, hc.fill rfl (fun he => by cases he) rfl hy⟩
    rw [hslots, Scaffold.slots_fill]
    rfl

/-- A marker may be opened if its position fits. -/
theorem Performed.start (h : Performed text s state hand x) (hlt : x.events.size < UInt32.size) :
    Steps text s (state.1, state.2.start) hand x .start := by
  obtain ⟨c, hslots, hc⟩ := h.written
  refine ⟨⟨⟨x.position⟩ :: hand.opened, none⟩, x.emit .unnamed, rfl, ?_, Array.size_push _⟩
  refine ⟨h.eof_eq, h.rest_eq, h.legible, c.start, ?_, ?_⟩
  · rw [hslots]
    rfl
  · rw [hc.opened_eq]
    refine Scaffold.written_start ?_ (Array.size_push _) ?_
      (fun first hfirst => by cases hfirst) hc.linkable
    · rw [Parser.emit, Array.toList_push, hc.events_eq, Cell.linkedEvents, List.append_nil]
      rfl
    · rw [Parser.emit, Array.toList_push]
      exact Event.fits_append_start_iff.mpr ⟨hc.events_eq ▸ hc.fits, hlt⟩

/-- The next token is read into the next slot. -/
theorem Performed.token {t : Token} {rest : List Token} {tree : Scaffold Slot}
    (h : Performed text s (t :: rest, tree) hand x) :
    Steps text s (rest, tree.fill (some t.green)) hand x .token := by
  have hrun : Grammar.advance x = .ok ((), { x.emit (.token t) with rest }) := by
    change Except.ok ((), x.consume) = _
    rw [Parser.consume, h.rest_eq]
    rfl
  refine ⟨hand, _, Grammar.bind_eq_of_ok hrun, ?_, Array.size_push _⟩
  exact h.fill_token (h.legible t List.mem_cons_self) rfl rfl
    (fun u hu => List.mem_cons_of_mem _ hu) rfl

/-- The end of the text is read into the next slot. -/
theorem Performed.endOfText {tree : Scaffold Slot} (h : Performed text s ([], tree) hand x) :
    Steps text s ([], tree.fill (some s.eof.green)) hand x .endOfText := by
  have hrun : Grammar.finishInput x = .ok ((), x.emit (.token s.eof)) := by
    have hinsist : Grammar.insist .eof x = .ok ((), x) := by
      have hnext : x.nextKind = .eof := by rw [Parser.nextKind, h.rest_eq]
      change (if x.nextKind = .eof then _ else _ : Grammar Unit) x = _
      rw [if_pos hnext]
      rfl
    rw [← h.eof_eq]
    exact Grammar.bind_eq_of_ok hinsist
  refine ⟨hand, _, Grammar.bind_eq_of_ok hrun, ?_, Array.size_push _⟩
  exact h.fill_token (h.legible s.eof (List.mem_append_right _ (List.mem_singleton_self _))) rfl
    h.rest_eq (fun u hu => hu) rfl

/-- The next slot is left empty. -/
theorem Performed.absent (h : Performed text s state hand x) :
    Steps text s (state.1, state.2.fill none) hand x .absent := by
  obtain ⟨c, hslots, hc⟩ := h.written
  refine ⟨hand, x.emit .absent, rfl, ?_, Array.size_push _⟩
  refine ⟨h.eof_eq, h.rest_eq, h.legible, c.fill .absent, ?_,
    hc.fill rfl (fun he => by cases he) rfl rfl⟩
  rw [hslots, Scaffold.slots_fill]
  rfl

/-- A placeholder is put into the next slot. -/
theorem Performed.missing (h : Performed text s state hand x) (kind : Kind) :
    Steps text s (state.1, state.2.fill (some (.blank kind))) hand x (.missing kind) := by
  obtain ⟨c, hslots, hc⟩ := h.written
  refine ⟨⟨hand.opened, some ⟨x.position⟩⟩, x.emit (.missing kind none), rfl, ?_,
    Array.size_push _⟩
  refine ⟨h.eof_eq, h.rest_eq, h.legible, c.fill (.missing kind), ?_, ?_⟩
  · rw [hslots, Scaffold.slots_fill]
    rfl
  · have hposition : x.position =
        (c.events.length + (Piece.missing kind).marker).toUInt32 := by
      rw [Parser.position, ← Array.length_toList, hc.events_eq]
      rfl
    rw [hc.opened_eq, hposition]
    refine Scaffold.written_fill_completed ?_ ?_ ?_ hc.linkable
    · change Green.isCompleted (some (.blank kind)) = true
      simp [Green.isCompleted]
    · rw [Parser.emit, Array.toList_push, hc.events_eq, Scaffold.events_fill]
      rfl
    · rw [Scaffold.events_fill]
      exact (Event.fits_append_iff fun he => by cases he).mpr hc.fits

/-- The innermost node is completed. -/
theorem Performed.complete {kind : Kind} {tree : Scaffold Slot} (h : Performed text s state hand x)
    (hclose : state.2.close? (Green.node? kind) = some tree) :
    Steps text s (state.1, tree) hand x (.complete kind) := by
  obtain ⟨⟨opened, filled⟩, hslots, hc⟩ := h.written
  rw [hslots] at hclose
  cases opened with
  | nil => cases hclose
  | cons top outer =>
    obtain ⟨slot, hslot, rfl⟩ := Option.map_eq_some_iff.mp hclose
    obtain ⟨⟨hnode, hkind, harity⟩, hmade⟩ := Option.ite_none_right_eq_some.mp hslot
    obtain rfl := Option.some.inj hmade
    have happend : top.1.map Cell.slot ++ filled.map Cell.slot =
        (top.1 ++ filled).map Cell.slot := List.map_append.symm
    let cell := Cell.join hnode hkind (happend ▸ harity) (hc.linkable top List.mem_cons_self)
    have hdone : Green.isCompleted cell.slot = true := rfl
    have hpiece : cell.piece = Cell.joinPiece kind top.1 filled := rfl
    obtain ⟨m, last, y, hopened, hrun, hy, hrest, heof, hsize⟩ := hc.complete hdone hpiece
    refine ⟨⟨Scaffold.markers outer, some last⟩, y, ?_,
      ⟨heof.trans h.eof_eq, hrest.trans h.rest_eq, h.legible, _, ?_, hy⟩, hsize⟩
    · rw [perform, hopened]
      exact Grammar.bind_eq_of_ok hrun
    · rw [Scaffold.slots_fill]
      have hslot : cell.slot =
          some (.assemble kind .present (top.1.map Cell.slot ++ filled.map Cell.slot)) := by
        rw [happend]
        rfl
      rw [hslot]
      rfl

/-- A node is opened around the element that was completed last. -/
theorem Performed.precede {tree : Scaffold Slot} (h : Performed text s state hand x)
    (hlt : x.events.size < UInt32.size) (hwrap : state.2.wrap? Green.isCompleted = some tree) :
    Steps text s (state.1, tree) hand x .precede := by
  obtain ⟨c, hslots, hc⟩ := h.written
  rw [hslots, Scaffold.wrap?] at hwrap
  obtain ⟨halves, hhalves, rfl⟩ := Option.map_eq_some_iff.mp hwrap
  have hmap := cutAtLast_map Green.isCompleted Cell.slot c.filled
  obtain ⟨⟨before, around⟩, hcut, rfl⟩ := Option.map_eq_some_iff.mp (hmap.symm.trans hhalves)
  obtain ⟨-, first, between, hcons, -⟩ := of_cutAtLast_eq_some hcut
  obtain rfl : around = first :: between := hcons
  obtain ⟨last, m, y, hlast, hrun, hy, hrest, heof, hsize⟩ := hc.precede hcut hlt
  refine ⟨⟨m :: hand.opened, none⟩, y, ?_,
    ⟨heof.trans h.eof_eq, hrest.trans h.rest_eq, h.legible, _, rfl, hy⟩, hsize⟩
  rw [perform, hlast]
  exact Grammar.bind_eq_of_ok hrun

/-- An operation that is legal is performed, and what it means comes about. -/
theorem Performed.step {state' : List Token × Scaffold Slot} {o : Operation}
    (h : Performed text s state hand x) (hlt : o.opens = true → x.events.size < UInt32.size)
    (hmean : mean? s.eof state o = some state') : Steps text s state' hand x o := by
  obtain ⟨tokens, tree⟩ := state
  cases o with
  | start =>
    obtain rfl := Option.some.inj hmean
    exact h.start (hlt rfl)
  | token =>
    cases tokens with
    | nil => cases hmean
    | cons t rest =>
      obtain rfl := Option.some.inj hmean
      exact h.token
  | endOfText =>
    obtain ⟨hempty, hstate⟩ := Option.ite_none_right_eq_some.mp hmean
    obtain rfl : tokens = [] := List.isEmpty_iff.mp hempty
    obtain rfl := Option.some.inj hstate
    exact h.endOfText
  | missing kind =>
    obtain rfl := Option.some.inj hmean
    exact h.missing kind
  | absent =>
    obtain rfl := Option.some.inj hmean
    exact h.absent
  | complete kind =>
    obtain ⟨tree', hclose, rfl⟩ := Option.map_eq_some_iff.mp hmean
    exact h.complete hclose
  | precede =>
    obtain ⟨tree', hwrap, rfl⟩ := Option.map_eq_some_iff.mp hmean
    exact h.precede (hlt rfl) hwrap

/-- Operations that are legal one after the other are performed. -/
theorem Performed.run {state' : List Token × Scaffold Slot} {operations : List Operation}
    (h : Performed text s state hand x)
    (hfit : ∀ i o, operations[i]? = some o → o.opens = true → x.events.size + i < UInt32.size)
    (hmean : operations.foldlM (mean? s.eof) state = some state') :
    ∃ hand' y, operations.foldlM perform hand x = .ok (hand', y) ∧
      Performed text s state' hand' y := by
  induction operations generalizing state hand x with
  | nil =>
    obtain rfl := Option.some.inj hmean
    exact ⟨hand, x, rfl, h⟩
  | cons o operations ih =>
    rw [List.foldlM_cons] at hmean
    obtain ⟨next, hnext, hrest⟩ := Option.bind_eq_some_iff.mp hmean
    obtain ⟨hand', y, hstep, hy, hsize⟩ := h.step (hfit 0 o rfl) hnext
    have hfit' : ∀ i p, operations[i]? = some p → p.opens = true →
        y.events.size + i < UInt32.size := by
      intro i p hp hopens
      have hlt := hfit (i + 1) p hp hopens
      omega
    obtain ⟨hand'', z, hrun, hz⟩ := ih hy hfit' hrest
    refine ⟨hand'', z, ?_, hz⟩
    rw [List.foldlM_cons, Grammar.bind_eq_of_ok hstep]
    exact hrun

end Steps

/-- A tree that operations mean is a node that can be built, the operations are performed, and their
events are resolved to the steps of the tree. -/
theorem exists_of_tree?_eq_some {text : String} {operations : List Operation} {tree : Green}
    (h : tree? (tokenize text) operations = some tree) (hfit : Fit operations) :
    tree.isNode = true ∧ tree.Buildable ∧
      ∃ hand x, operations.foldlM perform {} (Parser.ofStream (tokenize text)) = .ok (hand, x) ∧
        Event.resolve text x.events.toList = .ok tree.flatten := by
  obtain ⟨state, hmean, hroot⟩ := Option.bind_eq_some_iff.mp h
  obtain ⟨hand, x, hrun, hperformed⟩ :=
    (performed_ofStream text).run (by simpa [Parser.ofStream, Fit] using hfit) hmean
  obtain ⟨c, hslots, hc⟩ := hperformed.written
  obtain ⟨cell, rfl, hcell, hnode⟩ := Scaffold.of_root?_slots_eq_some (hslots ▸ hroot)
  refine ⟨hnode, cell.buildable tree hcell, hand, x, hrun, ?_⟩
  have hevents : x.events.toList = cell.piece.events none := by
    simpa [Scaffold.openedEvents, Cell.eventsOf, Piece.eventsOf] using hc.events_eq
  have hfits : Event.Fits (cell.piece.events none) := hevents ▸ hc.events_eq ▸ hc.fits
  rw [hevents, Event.resolve_of_resolves cell.resolves hfits, cell.steps_eq, hcell]
  simp [Green.flattenAll]

end Operation

namespace Workspace

/-- Operations of a parser that are legal build the tree they mean, in every store of a workspace
that can be reached: the parser performs them, its events are resolved, and what is built from the
steps is equal to the tree by value. The tree has to fit, and so do the numbers of the operations
that open nodes, which become positions of 32 bits. -/
theorem Reachable.operations_build {w : Workspace} (hw : w.Reachable) {s : Store}
    (hs : s ∈ w.stores) {text : String} {operations : List Operation} {tree : Green}
    (htree : Operation.tree? (tokenize text) operations = some tree)
    (hfit : Operation.Fit operations) (hwidth : tree.width < Width.limit) :
    ∃ hand x steps g t,
      (operations.foldlM Operation.perform {}).run (.ofStream (tokenize text)) = .ok (hand, x) ∧
      Event.resolve text x.events.toList = .ok steps ∧ Builder.run steps s = (.ok g, t) ∧
      g.value = tree.value ∧ g.sameValue tree = true := by
  obtain ⟨hnode, hbuildable, hand, x, hrun, hsteps⟩ :=
    Operation.exists_of_tree?_eq_some htree hfit
  have hassembled := Builder.assembled?_flatten hnode hbuildable hwidth
  obtain ⟨r, hr⟩ := hw.exists_sound
  obtain ⟨f, -, ⟨g, hbuild, hbuilt⟩ | ⟨fault, -, hnone⟩⟩ :=
    Builder.yields_run (hr.site hs) tree.flatten
  · have hvalue : g.value = tree.value := Option.some.inj (hbuilt.symm.trans hassembled)
    exact ⟨hand, x, tree.flatten, g, f.store, hrun, hsteps, hbuild, hvalue,
      Green.sameValue_of_value_eq hvalue⟩
  · cases hnone.symm.trans hassembled

/-- The operator of a sum is read before the sum is opened around what stands to its left, its right
side is a product that is opened around a placeholder, and the whole becomes a statement. -/
theorem Reachable.operations_build_sum :
    ∃ (w : Workspace) (s t : Store) (operations : List Operation) (tree g : Green) (hand : Hand)
      (x : Parser) (steps : List BuildStep), w.Reachable ∧ s ∈ w.stores ∧
      operations = [.start, .token, .complete .literalExpr, .token, .precede,
        .missing .missingExpr, .precede, .token, .missing .missingExpr, .complete .binaryExpr,
        .complete .binaryExpr, .precede, .complete .exprStmt] ∧
      Operation.tree? (tokenize "1 + *") operations = some tree ∧
      Operation.Fit operations ∧ tree.width < Width.limit ∧
      tree.flatten = [.start .exprStmt, .start .binaryExpr, .start .literalExpr,
        .token .intNumber "1 " [] [⟨.whitespace, 1⟩], .finish,
        .token .plus "+ " [] [⟨.whitespace, 1⟩], .start .binaryExpr, .missing .missingExpr,
        .token .star "*" [] [], .missing .missingExpr, .finish, .finish, .finish] ∧
      (operations.foldlM Operation.perform {}).run (.ofStream (tokenize "1 + *")) =
        .ok (hand, x) ∧
      Event.resolve "1 + *" x.events.toList = .ok steps ∧ Builder.run steps s = (.ok g, t) ∧
      g.value = tree.value ∧ g.sameValue tree = true := by
  let operations : List Operation := [.start, .token, .complete .literalExpr, .token, .precede,
    .missing .missingExpr, .precede, .token, .missing .missingExpr, .complete .binaryExpr,
    .complete .binaryExpr, .precede, .complete .exprStmt]
  have hflatten : ((Operation.tree? (tokenize "1 + *") operations).map fun tree =>
      (tree.width, tree.flatten)) =
      some (5, [.start .exprStmt, .start .binaryExpr, .start .literalExpr,
        .token .intNumber "1 " [] [⟨.whitespace, 1⟩], .finish,
        .token .plus "+ " [] [⟨.whitespace, 1⟩], .start .binaryExpr, .missing .missingExpr,
        .token .star "*" [] [], .missing .missingExpr, .finish, .finish, .finish]) := by
    decide +kernel
  obtain ⟨tree, htree, hpair⟩ := Option.map_eq_some_iff.mp hflatten
  obtain ⟨hwidth, hsteps⟩ := Prod.mk.inj hpair
  have hfit : Operation.Fit operations := fun i o ho _ =>
    Nat.lt_of_lt_of_le (List.getElem?_eq_some_iff.mp ho).1 (by decide)
  have hlimit : tree.width < Width.limit := by
    rw [hwidth]
    decide
  have hw : (Workspace.ofStore "main" {}).Reachable := .ofStore "main" {}
  obtain ⟨s, hs⟩ : ∃ s, s ∈ (Workspace.ofStore "main" {}).stores := ⟨_, List.mem_singleton_self _⟩
  obtain ⟨hand, x, steps, g, t, hrun, hresolve, hbuild, hvalue⟩ :=
    hw.operations_build hs htree hfit hlimit
  exact ⟨_, s, t, operations, tree, g, hand, x, steps, hw, hs, rfl, htree, hfit, hlimit, hsteps,
    hrun, hresolve, hbuild, hvalue⟩

end Workspace

end Verbatim
