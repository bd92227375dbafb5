import Verbatim.Proofs.Sketch

/-!
# Drafts

A draft is a tree under construction by the grammar: the open nodes, each with the slots that stood
before it, and the slots filled since the innermost node was opened. It is begun after any events
that are there already. Opening, filling, closing and wrapping are the moves. A parser shows a draft
when its events write the draft down. Event positions have 32 bits, so this is exact only as long as
every node starts below that limit; past it the parser shows a draft loosely, and the start that has
no position stays without a name for good.
-/

namespace Verbatim

/-- A tree under construction. -/
structure Draft where
  /-- The events that were there before the tree was begun. -/
  base : List Event := []
  /-- The open nodes, innermost first: the element a late node was opened around, and the slots that
  stood before the node. -/
  opened : List (Option Sketch × List Sketch) := []
  /-- The slots filled since the innermost node was opened. -/
  filled : List Sketch := []

namespace Draft

/-- The events of the element a late node was opened around. -/
def linkedEvents : Option Sketch → List Event
  | none => []
  | some first => first.events (some first.parentDistance)

/-- The events of the open nodes and of what stands before them. -/
def openedEvents : List (Option Sketch × List Sketch) → List Event
  | [] => []
  | (first, before) :: outer =>
    openedEvents outer ++ Sketch.eventsOf before ++ linkedEvents first ++ [.unnamed]

/-- The events that write a draft down. -/
def events (d : Draft) : List Event :=
  d.base ++ openedEvents d.opened ++ Sketch.eventsOf d.filled

/-- Number of events of a draft. -/
def size (d : Draft) : Nat := d.events.length

/-- Fills the next slot. -/
def fill (d : Draft) (s : Sketch) : Draft := { d with filled := d.filled ++ [s] }

/-- Fills the next slots. -/
def fills (d : Draft) (slots : List Sketch) : Draft := { d with filled := d.filled ++ slots }

/-- Opens a node. -/
def start (d : Draft) : Draft := { d with opened := (none, d.filled) :: d.opened, filled := [] }

/-- Opens a node around an element that follows the slots of the draft. -/
def startAround (d : Draft) (first : Sketch) : Draft :=
  { d with opened := (some first, d.filled) :: d.opened, filled := [] }

/-- Closes the innermost open node. -/
def close (d : Draft) (kind : Kind) : Draft :=
  match d.opened with
  | [] => d
  | (none, before) :: outer =>
    { d with opened := outer, filled := before ++ [.node kind false d.filled] }
  | (some first, before) :: outer =>
    { d with opened := outer, filled := before ++ [.node kind true (first :: d.filled)] }

/-- What completing an element in the next slot hands out. -/
def mark (d : Draft) (s : Sketch) : Completed := ⟨(d.size + s.marker).toUInt32⟩

/-- A slot that is filled is written down last. -/
@[simp] theorem events_fill (d : Draft) (s : Sketch) :
    (d.fill s).events = d.events ++ s.events none := by
  simp [events, fill, Sketch.eventsOf]

/-- The draft of nothing but one sketch is written down as the sketch is. -/
theorem events_fill_empty (s : Sketch) : (fill {} s).events = s.events none := by
  simp [events, fill, openedEvents, Sketch.eventsOf]

@[simp] theorem events_fills (d : Draft) (slots : List Sketch) :
    (d.fills slots).events = d.events ++ Sketch.eventsOf slots := by
  simp [events, fills]

@[simp] theorem events_start (d : Draft) : d.start.events = d.events ++ [.unnamed] := by
  simp [events, start, openedEvents, linkedEvents, Sketch.eventsOf]

@[simp] theorem events_startAround (d : Draft) (first : Sketch) :
    (d.startAround first).events =
      d.events ++ first.events (some first.parentDistance) ++ [.unnamed] := by
  simp [events, startAround, openedEvents, linkedEvents, Sketch.eventsOf]

@[simp] theorem fills_nil (d : Draft) : d.fills [] = d := by
  simp [fills]

@[simp] theorem fills_fills (d : Draft) (a b : List Sketch) :
    (d.fills a).fills b = d.fills (a ++ b) := by
  simp [fills]

@[simp] theorem fills_fill (d : Draft) (a : List Sketch) (s : Sketch) :
    (d.fills a).fill s = d.fills (a ++ [s]) := by
  simp [fills, fill]

@[simp] theorem fill_fills (d : Draft) (s : Sketch) (a : List Sketch) :
    (d.fill s).fills a = d.fills (s :: a) := by
  simp [fills, fill]

/-- A node that was opened plainly is closed around what was filled since. -/
@[simp] theorem close_start (d : Draft) (slots : List Sketch) (kind : Kind) :
    (d.start.fills slots).close kind = d.fill (.node kind false slots) := by
  simp [start, fills, close, fill]

/-- A late node is closed around the element it was opened around and what was filled since. -/
@[simp] theorem close_startAround (d : Draft) (first : Sketch) (slots : List Sketch) (kind : Kind) :
    ((d.startAround first).fills slots).close kind =
      d.fill (.node kind true (first :: slots)) := by
  simp [startAround, fills, close, fill]

end Draft

namespace Event

/-- What an event was before anyone named its node or linked it to a parent. -/
def bare : Event → Event
  | .start _ _ => .unnamed
  | .missing kind _ => .missing kind none
  | e => e

/-- Every node starts at a position that has 32 bits. -/
def Fits (events : List Event) : Prop :=
  ∀ i, UInt32.size ≤ i → (events.map bare)[i]? ≠ some .unnamed

/-- Some start has a position that does not fit, and was never named. -/
def Spoiled (events : List Event) : Prop := ∃ i, UInt32.size ≤ i ∧ events[i]? = some .unnamed

/-- If all events fit, so do the first ones. -/
theorem fits_of_append {a b : List Event} (h : Fits (a ++ b)) : Fits a := by
  intro i hi he
  obtain ⟨hlt, -⟩ := List.getElem?_eq_some_iff.mp he
  apply h i hi
  rw [List.map_append, List.getElem?_append_left hlt]
  exact he

/-- Events that are not too many fit. -/
theorem fits_of_length_le {events : List Event} (h : events.length ≤ UInt32.size) :
    Fits events := by
  intro i hi hat
  obtain ⟨hlt, -⟩ := List.getElem?_eq_some_iff.mp hat
  rw [List.length_map] at hlt
  omega

/-- Fitting depends on the bare events only. -/
theorem fits_congr {a b : List Event} (h : a.map bare = b.map bare) : Fits a ↔ Fits b := by
  rw [Fits, Fits, h]

/-- An event that opens no node never spoils a list that fits. -/
theorem fits_append_iff {a : List Event} {e : Event} (he : e.bare ≠ .unnamed) :
    Fits (a ++ [e]) ↔ Fits a := by
  refine ⟨fits_of_append, fun h i hi hat => ?_⟩
  rw [List.map_append, List.getElem?_append] at hat
  split at hat
  · exact h i hi hat
  · have hmem := List.mem_of_getElem? hat
    simp only [List.map_cons, List.map_nil, List.mem_singleton] at hmem
    exact he hmem.symm

/-- A start at the end of a list fits exactly below the limit. -/
theorem fits_append_start_iff {a : List Event} {kind : Kind} {forward : Option UInt32} :
    Fits (a ++ [.start kind forward]) ↔ Fits a ∧ a.length < UInt32.size := by
  constructor
  · intro h
    refine ⟨fits_of_append h, Nat.lt_of_not_le fun hle => h a.length hle ?_⟩
    rw [List.map_append, List.getElem?_append_right (by simp)]
    simp [bare]
  · rintro ⟨h, hlt⟩ i hi hat
    rw [List.map_append, List.getElem?_append] at hat
    split at hat
    · exact h i hi hat
    · obtain ⟨hx, -⟩ := List.getElem?_eq_some_iff.mp hat
      simp only [List.length_map, List.length_singleton] at hx
      omega

/-- A start that stands in a list that fits has a position that fits. -/
theorem Fits.length_lt {before after : List Event} (h : Fits (before ++ .unnamed :: after)) :
    before.length < UInt32.size := by
  refine Nat.lt_of_not_le fun hle => h before.length hle ?_
  simp [bare, unnamed]

/-- Naming a start and writing an end down changes nothing for fitting. -/
theorem fits_named_iff {before after : List Event} {kind : Kind} :
    Fits (before ++ .start kind none :: (after ++ [.finish])) ↔
      Fits (before ++ .unnamed :: after) := by
  have hbare : (before ++ start kind none :: (after ++ [finish])).map bare =
      ((before ++ unnamed :: after) ++ [finish]).map bare := by
    simp [bare, unnamed]
  exact (fits_congr hbare).trans (fits_append_iff (by simp [bare, unnamed]))

/-- Linking an element to a start that is written down makes this start count. -/
theorem fits_linked_iff {before after : List Event} {head : Option UInt32 → Event}
    (hhead : (∃ kind, head = start kind) ∨ ∃ kind, head = missing kind) {distance : UInt32} :
    Fits (before ++ head (some distance) :: (after ++ [.unnamed])) ↔
      Fits (before ++ head none :: after) ∧
        (before ++ head none :: after).length < UInt32.size := by
  have hbare : (before ++ head (some distance) :: (after ++ [unnamed])).map bare =
      ((before ++ head none :: after) ++ [unnamed]).map bare := by
    rcases hhead with ⟨kind, rfl⟩ | ⟨kind, rfl⟩ <;> simp [bare]
  exact (fits_congr hbare).trans fits_append_start_iff

/-- A spoiled list stays spoiled when it grows. -/
theorem Spoiled.append {a : List Event} (h : Spoiled a) (b : List Event) : Spoiled (a ++ b) := by
  obtain ⟨i, hi, he⟩ := h
  obtain ⟨hlt, -⟩ := List.getElem?_eq_some_iff.mp he
  exact ⟨i, hi, by rw [List.getElem?_append_left hlt]; exact he⟩

/-- A spoiled list stays spoiled when an event is changed at a position that fits. -/
theorem Spoiled.set {a : List Event} (h : Spoiled a) {n : Nat} (hn : n < UInt32.size) (e : Event) :
    Spoiled (a.set n e) := by
  obtain ⟨i, hi, he⟩ := h
  exact ⟨i, hi, by rw [List.getElem?_set_ne (by omega)]; exact he⟩

end Event

/-- Filling a slot takes no position back. -/
theorem Draft.fits_of_fill {d : Draft} {s : Sketch} (h : Event.Fits (d.fill s).events) :
    Event.Fits d.events := by
  rw [events_fill] at h
  exact Event.fits_of_append h

/-- What the grammar goes by: the tokens left, and how deeply it is nested. -/
structure Reader where
  /-- The tokens still to be consumed. -/
  rest : List Token
  /-- The nesting of the grammar. -/
  nesting : Nesting

namespace Reader

/-- The kind of the next token. -/
def next (p : Reader) : Kind :=
  match p.rest with
  | [] => .eof
  | t :: _ => t.kind

/-- Enters one nesting level; tells whether it was granted. -/
def enter (p : Reader) : Bool × Reader := (p.nesting.enter.1, ⟨p.rest, p.nesting.enter.2⟩)

/-- Leaves nesting levels. -/
def leave (p : Reader) (levels : Nat) : Reader :=
  ⟨p.rest, { p.nesting with depth := p.nesting.depth - levels }⟩

/-- Forgets that the nesting limit was met. -/
def calm (p : Reader) : Reader := ⟨p.rest, { p.nesting with exhausted := false }⟩

/-- The next kind depends on the tokens left only. -/
theorem next_of_rest_eq {p q : Reader} (h : p.rest = q.rest) : p.next = q.next := by
  rw [next, next, h]

@[simp] theorem rest_enter (p : Reader) : p.enter.2.rest = p.rest := rfl

@[simp] theorem rest_leave (p : Reader) (levels : Nat) : (p.leave levels).rest = p.rest := rfl

@[simp] theorem rest_calm (p : Reader) : p.calm.rest = p.rest := rfl

@[simp] theorem next_cons (t : Token) (rest : List Token) (n : Nesting) :
    (⟨t :: rest, n⟩ : Reader).next = t.kind := rfl

@[simp] theorem next_enter (p : Reader) : p.enter.2.next = p.next := rfl

@[simp] theorem next_leave (p : Reader) (levels : Nat) : (p.leave levels).next = p.next := rfl

end Reader

/-- What the grammar sees of a parser. -/
def Parser.reader (x : Parser) : Reader := ⟨x.rest, x.nesting⟩

/-- The events of a parser write a draft down: exactly if every node starts at a position that fits,
and otherwise with a start that was never named, unless the events before the draft did not fit. -/
structure Parser.Shows (x : Parser) (d : Draft) : Prop where
  bare : x.events.toList.map Event.bare = d.events.map Event.bare
  exact : Event.Fits d.events → x.events.toList = d.events
  spoiled : Event.Fits d.base → ¬ Event.Fits d.events → Event.Spoiled x.events.toList

namespace Parser

variable {x : Parser} {d : Draft}

/-- Writing a slot down that opens no node fills the slot. -/
theorem Shows.fill (h : x.Shows d) {s : Sketch} {e : Event} (hs : s.events none = [e])
    (he : e.bare ≠ .unnamed) : (x.emit e).Shows (d.fill s) where
  bare := by simp [emit, hs, h.bare]
  exact hfits := by
    rw [Draft.events_fill, hs, Event.fits_append_iff he] at hfits
    simp [emit, hs, h.exact hfits]
  spoiled hbase hfits := by
    rw [Draft.events_fill, hs, Event.fits_append_iff he] at hfits
    simpa [emit] using (h.spoiled hbase hfits).append [e]

/-- A parser that reads a token shows it in the next slot. -/
theorem Shows.fill_token (h : x.Shows d) (t : Token) :
    (x.emit (.token t)).Shows (d.fill (.token t)) :=
  h.fill rfl (by simp [Event.bare, Event.unnamed])

/-- Writing a start down opens a node. -/
theorem Shows.start (h : x.Shows d) : (x.emit .unnamed).Shows d.start where
  bare := by simp [emit, h.bare]
  exact hfits := by
    rw [Draft.events_start, Event.unnamed, Event.fits_append_start_iff] at hfits
    simp [emit, Event.unnamed, h.exact hfits.1]
  spoiled hbase hfits := by
    rw [Draft.events_start, Event.unnamed, Event.fits_append_start_iff, not_and] at hfits
    by_cases hd : Event.Fits d.events
    · refine ⟨d.events.length, Nat.le_of_not_lt (hfits hd), ?_⟩
      simp [emit, h.exact hd]
    · simpa [emit] using (h.spoiled hbase hd).append [.unnamed]

/-- Every parser shows the draft that is begun after its events. -/
theorem shows_base (x : Parser) : x.Shows { base := x.events.toList } where
  bare := by simp [Draft.events, Draft.openedEvents, Sketch.eventsOf]
  exact _ := by simp [Draft.events, Draft.openedEvents, Sketch.eventsOf]
  spoiled hbase hfits := by
    simp only [Draft.events, Draft.openedEvents, Sketch.eventsOf, List.append_nil] at hfits
    exact absurd hbase hfits

/-- A parser has as many events as the draft it shows. -/
theorem Shows.size_eq (h : x.Shows d) : x.events.size = d.size := by
  simpa [Draft.size] using congrArg List.length h.bare

end Parser

end Verbatim
