import Verbatim.Parser

/-!
# Sketches of trees

A sketch is a tree the way the grammar draws it: tokens that were read, placeholders, empty slots
and nodes. A node may be late, which means that it was opened only after its first slot was filled.
A late node is written down after the events of its first slot, which are told how far ahead it
starts. Both the events of a sketch and the steps that build it are read off its structure here;
that resolving the first gives the second is proved in `Proofs.Resolution`.
-/

namespace Verbatim

/-- The step that builds a token from what it carries. -/
def Token.step (t : Token) : BuildStep :=
  .token t.kind (String.ofList t.chars) t.leadingPieces t.trailingPieces

/-- A slot as the grammar fills it, before anything is stored. -/
inductive Sketch where
  /-- A token that was read. -/
  | token (token : Token)
  /-- A placeholder. -/
  | missing (kind : Kind)
  /-- An empty slot. -/
  | absent
  /-- A node; a late one was opened after its first slot was filled. -/
  | node (kind : Kind) (late : Bool) (slots : List Sketch)
  deriving Inhabited

namespace Sketch

mutual
/-- Number of events that write a slot down. -/
def eventCount : Sketch → Nat
  | token _ | missing _ | absent => 1
  | node _ _ slots => eventCountOf slots + 2
/-- Number of events that write several slots down. -/
def eventCountOf : List Sketch → Nat
  | [] => 0
  | s :: rest => s.eventCount + eventCountOf rest
end

/-- Position, among the events of an element, of the one that can be told about a parent. -/
def marker : Sketch → Nat
  | node _ true (first :: _) => first.eventCount
  | _ => 0

/-- How far ahead of its marker a parent of the element starts. -/
def parentDistance (s : Sketch) : UInt32 := (s.eventCount - s.marker).toUInt32

mutual
/-- The events that write a slot down; `forward` is the distance to a parent that is added later. -/
def events (forward : Option UInt32) : Sketch → List Event
  | token t => [.token t]
  | missing kind => [.missing kind forward]
  | absent => [.absent]
  | node kind true (first :: rest) =>
    first.events (some first.parentDistance) ++ .start kind forward :: (eventsOf rest ++ [.finish])
  | node kind _ slots => .start kind forward :: (eventsOf slots ++ [.finish])
/-- The events that write several slots down. -/
def eventsOf : List Sketch → List Event
  | [] => []
  | s :: rest => s.events none ++ eventsOf rest
end

mutual
/-- The steps that build a slot. -/
def steps : Sketch → List BuildStep
  | token t => [t.step]
  | missing kind => [.missing kind]
  | absent => [.absent]
  | node kind _ slots => .start kind :: (stepsOf slots ++ [.finish])
/-- The steps that build several slots. -/
def stepsOf : List Sketch → List BuildStep
  | [] => []
  | s :: rest => s.steps ++ stepsOf rest
end

mutual
/-- The tokens that were read, in order. -/
def tokens : Sketch → List Token
  | token t => [t]
  | missing _ | absent => []
  | node _ _ slots => tokensOf slots
/-- The tokens that were read into several slots. -/
def tokensOf : List Sketch → List Token
  | [] => []
  | s :: rest => s.tokens ++ tokensOf rest
end

/-- Induction over a slot and what its node holds. -/
theorem induct {P : Sketch → Prop} (token : ∀ t, P (token t)) (missing : ∀ k, P (missing k))
    (absent : P absent) (node : ∀ k late slots, (∀ s ∈ slots, P s) → P (node k late slots)) :
    ∀ s, P s
  | .token t => token t
  | .missing k => missing k
  | .absent => absent
  | .node k late slots => node k late slots fun s _ => induct token missing absent node s

/-- Whether the slot holds an element that can still be given a parent. -/
def isElement : Sketch → Bool
  | missing _ | node .. => true
  | token _ | absent => false

/-- Whether the slot holds an expression, or a placeholder for one. -/
def isExpr : Sketch → Bool
  | missing kind => kind == .missingExpr
  | node kind _ _ => kind.isExpr
  | token _ | absent => false

theorem isElement_of_isExpr {s : Sketch} (h : s.isExpr) : s.isElement := by
  cases s <;> first | rfl | cases h

@[simp] theorem eventsOf_append (a b : List Sketch) :
    eventsOf (a ++ b) = eventsOf a ++ eventsOf b := by
  induction a with
  | nil => rfl
  | cons s rest ih => simp [eventsOf, ih]

@[simp] theorem eventCountOf_append (a b : List Sketch) :
    eventCountOf (a ++ b) = eventCountOf a + eventCountOf b := by
  induction a with
  | nil => simp [eventCountOf]
  | cons s rest ih => simp [eventCountOf, ih, Nat.add_assoc]

@[simp] theorem eventCountOf_map_token (tokens : List Token) :
    eventCountOf (tokens.map token) = tokens.length := by
  induction tokens with
  | nil => rfl
  | cons t rest ih => simp [eventCountOf, eventCount, ih, Nat.add_comm]

@[simp] theorem tokensOf_append (a b : List Sketch) :
    tokensOf (a ++ b) = tokensOf a ++ tokensOf b := by
  induction a with
  | nil => rfl
  | cons s rest ih => simp [tokensOf, ih]

@[simp] theorem tokensOf_map_token (tokens : List Token) :
    tokensOf (tokens.map token) = tokens := by
  induction tokens with
  | nil => rfl
  | cons t rest ih => simp [tokensOf, Sketch.tokens, ih]

/-- A token read into several slots was read into one of them. -/
theorem mem_tokensOf {slots : List Sketch} {t : Token} :
    t ∈ tokensOf slots ↔ ∃ s ∈ slots, t ∈ s.tokens := by
  induction slots with
  | nil => simp [tokensOf]
  | cons s rest ih => simp [tokensOf, ih]

@[simp] theorem stepsOf_append (a b : List Sketch) :
    stepsOf (a ++ b) = stepsOf a ++ stepsOf b := by
  induction a with
  | nil => rfl
  | cons s rest ih => simp [stepsOf, ih]

/-- Lengths of slots add up when they are known one by one. -/
private theorem length_eventsOf_of {slots : List Sketch}
    (h : ∀ s ∈ slots, ∀ forward, (s.events forward).length = s.eventCount) :
    (eventsOf slots).length = eventCountOf slots := by
  induction slots with
  | nil => rfl
  | cons s rest ih =>
    simp only [eventsOf, eventCountOf, List.length_append, h s List.mem_cons_self]
    rw [ih fun t ht => h t (List.mem_cons_of_mem _ ht)]

/-- A link to a parent does not change the number of events. -/
@[simp] theorem length_events (s : Sketch) :
    ∀ forward, (s.events forward).length = s.eventCount := by
  induction s using induct with
  | token t => intro f; rfl
  | missing t => intro f; rfl
  | absent => intro f; rfl
  | node k late slots ih =>
    intro forward
    have hlen := length_eventsOf_of ih
    cases late with
    | false => simp [events, eventCount, hlen]
    | true =>
      cases slots with
      | nil => rfl
      | cons first rest =>
        have hrest := length_eventsOf_of fun s hs => ih s (List.mem_cons_of_mem _ hs)
        simp only [events, eventCount, eventCountOf, List.length_append, List.length_cons,
          List.length_nil, ih first List.mem_cons_self, hrest]
        omega

@[simp] theorem length_eventsOf (slots : List Sketch) :
    (eventsOf slots).length = eventCountOf slots :=
  length_eventsOf_of fun s _ => s.length_events

/-- An event of several slots is an event of one of them. -/
theorem mem_eventsOf {slots : List Sketch} {e : Event} :
    e ∈ eventsOf slots ↔ ∃ s ∈ slots, e ∈ s.events none := by
  induction slots with
  | nil => simp [eventsOf]
  | cons s rest ih => simp [eventsOf, ih]

/-- An event of a node starts it, ends it or is an event of one of its slots. -/
theorem mem_events_node {kind : Kind} {late : Bool} {slots : List Sketch}
    {forward : Option UInt32} {e : Event} (h : e ∈ (node kind late slots).events forward) :
    e = .start kind forward ∨ e = .finish ∨ ∃ s ∈ slots, ∃ f, e ∈ s.events f := by
  have hof {slots : List Sketch} (he : e ∈ eventsOf slots) : ∃ s ∈ slots, ∃ f, e ∈ s.events f := by
    obtain ⟨s, hs, he⟩ := mem_eventsOf.mp he
    exact ⟨s, hs, none, he⟩
  have hearly (h : e ∈ Event.start kind forward :: (eventsOf slots ++ [.finish])) :
      e = .start kind forward ∨ e = .finish ∨ ∃ s ∈ slots, ∃ f, e ∈ s.events f := by
    simp only [List.mem_cons, List.mem_append, List.not_mem_nil, or_false] at h
    rcases h with h | h | h
    · exact .inl h
    · exact .inr (.inr (hof h))
    · exact .inr (.inl h)
  cases late with
  | false => exact hearly h
  | true =>
    cases slots with
    | nil => exact hearly h
    | cons first rest =>
      simp only [events, List.mem_cons, List.mem_append, List.not_mem_nil, or_false] at h
      rcases h with h | h | h | h
      · exact .inr (.inr ⟨first, List.mem_cons_self, _, h⟩)
      · exact .inl h
      · obtain ⟨s, hs, h⟩ := hof h
        exact .inr (.inr ⟨s, List.mem_cons_of_mem _ hs, h⟩)
      · exact .inr (.inl h)

/-- The event of an element that can be told about a parent stands at its marker. -/
theorem events_split {s : Sketch} (h : s.isElement) :
    ∃ (before after : List Event) (head : Option UInt32 → Event),
      (∀ forward, s.events forward = before ++ head forward :: after) ∧ before.length = s.marker ∧
      ((∃ kind, head = Event.start kind) ∨ ∃ kind, head = Event.missing kind) := by
  cases s with
  | token t => cases h
  | absent => cases h
  | missing kind => exact ⟨[], [], .missing kind, fun _ => rfl, rfl, .inr ⟨kind, rfl⟩⟩
  | node kind late slots =>
    cases late with
    | false =>
      exact ⟨[], eventsOf slots ++ [.finish], .start kind, fun _ => rfl, rfl, .inl ⟨kind, rfl⟩⟩
    | true =>
      cases slots with
      | nil => exact ⟨[], [.finish], .start kind, fun _ => rfl, rfl, .inl ⟨kind, rfl⟩⟩
      | cons first rest =>
        exact ⟨first.events (some first.parentDistance), eventsOf rest ++ [.finish], .start kind,
          fun _ => rfl, length_events _ _, .inl ⟨kind, rfl⟩⟩

end Sketch

end Verbatim
