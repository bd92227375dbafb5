import Verbatim.Proofs.Conformity
import Verbatim.Proofs.Runs
import Verbatim.Proofs.Slicing

/-!
# Resolving events

The parser writes a slot down as a piece, a stretch of events. Resolving the events of a piece gives
the steps that build the slot. A late node starts after the events of its first slot, and possibly
of some more, and its start is moved in front of them: the parents that an event is told of form a
chain, and all of them are opened together. The sketches of the grammar are pieces whose late nodes
start right after their first slot.
-/

namespace Verbatim

/-- A stretch of events that writes a slot down. One of them may be told how far ahead a parent
starts. -/
structure Piece where
  /-- The events; the argument is the distance to a parent that is added later. -/
  events : Option UInt32 → List Event
  /-- Number of events. -/
  count : Nat
  /-- Position of the event that can be told about a parent. -/
  marker : Nat
  /-- The steps that build the slot. -/
  steps : List BuildStep
  length_events : ∀ forward, (events forward).length = count

namespace Piece

attribute [simp] length_events

/-- The events that write several slots down. -/
def eventsOf (slots : List Piece) : List Event := slots.flatMap fun p => p.events none

/-- Number of events that write several slots down. -/
def countOf (slots : List Piece) : Nat := sumOf count slots

/-- The steps that build several slots. -/
def stepsOf (slots : List Piece) : List BuildStep := slots.flatMap steps

theorem eventsOf_cons (p : Piece) (slots : List Piece) :
    eventsOf (p :: slots) = p.events none ++ eventsOf slots := rfl

theorem countOf_cons (p : Piece) (slots : List Piece) :
    countOf (p :: slots) = p.count + countOf slots := rfl

theorem stepsOf_cons (p : Piece) (slots : List Piece) :
    stepsOf (p :: slots) = p.steps ++ stepsOf slots := rfl

@[simp] theorem length_eventsOf (slots : List Piece) :
    (eventsOf slots).length = countOf slots := by
  induction slots with
  | nil => rfl
  | cons p slots ih => simpa [eventsOf, countOf] using ih

/-- How far ahead of its marker a parent starts, if there is a gap between the piece and the
parent. -/
def distance (p : Piece) (gap : Nat) : UInt32 := (p.count - p.marker + gap).toUInt32

/-- One event that is never told about a parent. -/
def leaf (event : Event) (step : BuildStep) : Piece where
  events _ := [event]
  count := 1
  marker := 0
  steps := [step]
  length_events _ := rfl

/-- A placeholder. -/
def missing (kind : Kind) : Piece where
  events forward := [.missing kind forward]
  count := 1
  marker := 0
  steps := [.missing kind]
  length_events _ := rfl

/-- A node that was opened before its slots. -/
def node (kind : Kind) (slots : List Piece) : Piece where
  events forward := .start kind forward :: (eventsOf slots ++ [.finish])
  count := countOf slots + 2
  marker := 0
  steps := .start kind :: (stepsOf slots ++ [.finish])
  length_events forward := by simp

/-- A node that was opened around an element, after some of the slots that follow the element. -/
def late (kind : Kind) (first : Piece) (between tail : List Piece) : Piece where
  events forward := first.events (some (first.distance (countOf between))) ++
    (eventsOf between ++ .start kind forward :: (eventsOf tail ++ [.finish]))
  count := first.count + countOf between + countOf tail + 2
  marker := first.count + countOf between
  steps := .start kind :: (first.steps ++ (stepsOf between ++ (stepsOf tail ++ [.finish])))
  length_events forward := by
    simp only [List.length_append, List.length_cons, List.length_nil, length_events,
      length_eventsOf]
    omega

theorem count_late (kind : Kind) (first : Piece) (between tail : List Piece) :
    (late kind first between tail).count =
      first.count + countOf between + countOf tail + 2 := rfl

theorem marker_late (kind : Kind) (first : Piece) (between tail : List Piece) :
    (late kind first between tail).marker = first.count + countOf between := rfl

/-- The event at the marker can be told about a parent. -/
def Linkable (p : Piece) : Prop :=
  ∃ (before after : List Event) (head : Option UInt32 → Event),
    (∀ forward, p.events forward = before ++ head forward :: after) ∧ before.length = p.marker ∧
    ((∃ kind, head = Event.start kind) ∨ ∃ kind, head = Event.missing kind)

/-- A placeholder may be given a parent. -/
theorem linkable_missing (kind : Kind) : (missing kind).Linkable :=
  ⟨[], [], .missing kind, fun _ => rfl, rfl, .inr ⟨kind, rfl⟩⟩

theorem linkable_node (kind : Kind) (slots : List Piece) : (node kind slots).Linkable :=
  ⟨[], eventsOf slots ++ [.finish], .start kind, fun _ => rfl, rfl, .inl ⟨kind, rfl⟩⟩

theorem linkable_late (kind : Kind) (first : Piece) (between tail : List Piece) :
    (late kind first between tail).Linkable :=
  ⟨first.events (some (first.distance (countOf between))) ++ eventsOf between,
    eventsOf tail ++ [.finish], .start kind, fun _ => (List.append_assoc ..).symm, by simp [late],
    .inl ⟨kind, rfl⟩⟩

/-- What is written down in the same way whatever it is told cannot be told anything. -/
theorem not_linkable_leaf (event : Event) (step : BuildStep) : ¬ (leaf event step).Linkable := by
  rintro ⟨before, after, head, hsplit, -, hhead⟩
  have hsame : before ++ head none :: after = before ++ head (some 0) :: after :=
    (hsplit none).symm.trans (hsplit (some 0))
  have hhead' := List.head_eq_of_cons_eq (List.append_cancel_left hsame)
  rcases hhead with ⟨kind, rfl⟩ | ⟨kind, rfl⟩ <;> cases hhead'

end Piece

namespace Event

/-- The events from position `here` on begin with a named start, whose parents in turn start later.
Lists the kinds, innermost first, and the positions, outermost first. -/
inductive Chain : Nat → List Event → List Kind → List Nat → Prop
  | last {here : Nat} {kind : Kind} {later : List Event} (hkind : kind ≠ .tombstone) :
    Chain here (.start kind none :: later) [kind] [here]
  | more {here : Nat} {kind : Kind} {distance : UInt32} {later : List Event} {kinds : List Kind}
    {positions : List Nat} (hkind : kind ≠ .tombstone) (hdistance : 0 < distance.toNat)
    (h : Chain (here + distance.toNat) (later.drop (distance.toNat - 1)) kinds positions) :
    Chain here (.start kind (some distance) :: later) (kind :: kinds) (positions ++ [here])

/-- A chain goes forward. -/
theorem Chain.le {here : Nat} {events : List Event} {kinds : List Kind} {positions : List Nat}
    (h : Chain here events kinds positions) : ∀ i ∈ positions, here ≤ i := by
  induction h with
  | last => simp
  | more _ _ _ ih =>
    intro i hi
    rcases List.mem_append.mp hi with hi | hi
    · exact Nat.le_trans (Nat.le_add_right _ _) (ih i hi)
    · exact Nat.le_of_eq (List.mem_singleton.mp hi).symm

/-- A link to a start that is not open yet opens it and what it is linked to. -/
theorem parents_of_drop {here : Nat} {rest later : List Event} {opened : List Nat}
    {distance : UInt32} {kind : Kind} {forward : Option UInt32}
    (hdrop : rest.drop (distance.toNat - 1) = .start kind forward :: later)
    (hopened : here + distance.toNat ∉ opened) :
    parents here rest opened (some distance) =
      (parents (here + distance.toNat) later ((here + distance.toNat) :: opened) forward).map
        fun (kinds, opened) => (if kind = .tombstone then kinds else kind :: kinds, opened) := by
  rw [parents]
  simp only [List.contains_iff_mem, hopened, if_false]
  split
  · next found forward' later' h =>
    rw [hdrop] at h
    cases h
    cases parents (here + distance.toNat) later ((here + distance.toNat) :: opened) forward <;> rfl
  · next hnone => exact absurd hdrop (hnone _ _ _)

/-- Following a chain opens all of it. -/
theorem parents_of_chain {here : Nat} {rest : List Event} {opened : List Nat} {distance : UInt32}
    {kinds : List Kind} {positions : List Nat}
    (h : Chain (here + distance.toNat) (rest.drop (distance.toNat - 1)) kinds positions)
    (hopened : ∀ i ∈ positions, i ∉ opened) :
    parents here rest opened (some distance) = .ok (kinds, positions ++ opened) := by
  obtain ⟨target, htarget⟩ : ∃ target, target = here + distance.toNat := ⟨_, rfl⟩
  obtain ⟨events, hevents⟩ : ∃ events, events = rest.drop (distance.toNat - 1) := ⟨_, rfl⟩
  rw [← htarget, ← hevents] at h
  induction h generalizing here rest opened distance with
  | last hkind =>
    rw [parents_of_drop hevents.symm (htarget ▸ hopened _ List.mem_cons_self), parents]
    simp [hkind, Except.map, htarget]
  | more hkind hdistance h ih =>
    have htop := hopened _ (List.mem_append_right _ List.mem_cons_self)
    rw [parents_of_drop hevents.symm (htarget ▸ htop), ← htarget, ih _ rfl rfl]
    · simp [hkind, Except.map]
    · intro i hi hmem
      have hle := h.le i hi
      rcases List.mem_cons.mp hmem with rfl | hmem
      · omega
      · exact hopened i (List.mem_append_left _ hi) hmem

/-- What an event of a piece is told of the parents of the piece: nothing, or that they start some
events after the piece. -/
inductive Linked (p : Piece) (here : Nat) (rest : List Event) :
    Option UInt32 → List Kind → List Nat → Prop
  | none : Linked p here rest none [] []
  | some {gap : Nat} {kinds : List Kind} {positions : List Nat} (hp : p.Linkable)
    (hfits : here + p.count + gap < UInt32.size)
    (h : Chain (here + p.count + gap) (rest.drop gap) kinds positions) :
    Linked p here rest (some (p.distance gap)) kinds positions

section Linked

variable {p : Piece} {here : Nat} {rest : List Event} {forward : Option UInt32} {kinds : List Kind}
  {positions : List Nat}

/-- The parents of a piece start after all of its events. -/
theorem Linked.le (h : Linked p here rest forward kinds positions) :
    ∀ i ∈ positions, here + p.count ≤ i := by
  cases h with
  | none => exact fun i hi => absurd hi List.not_mem_nil
  | some _ _ h => exact fun i hi => Nat.le_trans (Nat.le_add_right _ _) (h.le i hi)

/-- The distance to a parent is kept in 32 bits if the position of the parent fits. -/
theorem toNat_distance {gap : Nat} (hfits : here + p.count + gap < UInt32.size) :
    (p.distance gap).toNat = p.count - p.marker + gap :=
  Grammar.toNat_toUInt32_of_lt (by omega)

/-- The parents of a linked piece are found. -/
theorem parents_of_linked (h : Linked p here rest forward kinds positions) (after : List Event)
    (hafter : after.length + p.marker + 1 = p.count) {opened : List Nat}
    (hopened : ∀ i ∈ positions, i ∉ opened) :
    parents (here + p.marker) (after ++ rest) opened forward =
      .ok (kinds, positions ++ opened) := by
  cases h with
  | none => rw [parents]; rfl
  | @some gap _ _ _ hfits h =>
    have hdistance := toNat_distance hfits
    refine parents_of_chain ?_ hopened
    have htarget : here + p.marker + (p.distance gap).toNat = here + p.count + gap := by omega
    have hdrop : (after ++ rest).drop ((p.distance gap).toNat - 1) = rest.drop gap := by
      rw [show (p.distance gap).toNat - 1 = after.length + gap by omega,
        List.drop_length_add_append]
    rw [htarget, hdrop]
    exact h

/-- A late node extends the chain that starts after it. -/
theorem chain_of_linked {kind : Kind} {first : Piece} {between tail : List Piece}
    (hkind : kind ≠ .tombstone)
    (h : Linked (.late kind first between tail) here rest forward kinds positions) :
    Chain (here + first.count + Piece.countOf between)
      (.start kind forward :: (Piece.eventsOf tail ++ .finish :: rest))
      (kind :: kinds) (positions ++ [here + first.count + Piece.countOf between]) := by
  cases h with
  | none => exact .last hkind
  | @some gap _ _ _ hfits h =>
    have hdistance := toNat_distance hfits
    simp only [Piece.count_late, Piece.marker_late] at hdistance h
    refine .more hkind (by omega) ?_
    have htarget : here + first.count + Piece.countOf between +
        ((Piece.late kind first between tail).distance gap).toNat =
          here + (first.count + Piece.countOf between + Piece.countOf tail + 2) + gap := by omega
    have hdrop : (Piece.eventsOf tail ++ .finish :: rest).drop
        (((Piece.late kind first between tail).distance gap).toNat - 1) = rest.drop gap := by
      have hlen : ((Piece.late kind first between tail).distance gap).toNat - 1 =
          (Piece.eventsOf tail ++ [Event.finish]).length + gap := by
        rw [List.length_append, Piece.length_eventsOf, List.length_singleton]
        omega
      rw [hlen, List.append_cons _ _ rest, List.drop_length_add_append]
    rw [htarget, hdrop]
    exact h

end Linked

/-- Resolving the events of a piece opens the parents it is told of and builds its slot. -/
def Resolves (text : String) (p : Piece) : Prop :=
  ∀ (before rest : List Event) (forward : Option UInt32) (kinds : List Kind) (positions : List Nat)
    (opened : List Nat) (steps : Array BuildStep), Fits (before ++ p.events forward) →
    (∀ i ∈ opened, before.length + p.count ≤ i) → (∀ i ∈ positions, i ∉ opened) →
    Linked p before.length rest forward kinds positions →
    resolveFrom text before.length opened steps (p.events forward ++ rest) =
      resolveFrom text (before.length + p.count) (positions ++ opened)
        (steps ++ (kinds.reverse.map BuildStep.start ++ p.steps)) rest

section Slots

variable {text : String}

private theorem append_append (steps : Array BuildStep) (a b : List BuildStep) :
    steps ++ a ++ b = steps ++ (a ++ b) :=
  Array.ext' (by simp)

private theorem append_push (steps : Array BuildStep) (a : List BuildStep) (b : BuildStep) :
    (steps ++ a).push b = steps ++ (a ++ [b]) :=
  Array.ext' (by simp)

/-- Slots are resolved one after the other. -/
theorem resolveFrom_eventsOf {slots : List Piece} (hslots : ∀ p ∈ slots, Resolves text p)
    {before rest : List Event} {opened : List Nat} {steps : Array BuildStep}
    (hfits : Fits (before ++ Piece.eventsOf slots))
    (hopened : ∀ i ∈ opened, before.length + Piece.countOf slots ≤ i) :
    resolveFrom text before.length opened steps (Piece.eventsOf slots ++ rest) =
      resolveFrom text (before.length + Piece.countOf slots) opened
        (steps ++ Piece.stepsOf slots) rest := by
  -- the induction is on the slots; the events before them grow by those of each slot
  induction slots generalizing before steps with
  | nil => simp [Piece.eventsOf, Piece.countOf, Piece.stepsOf]
  | cons p slots ih =>
    simp only [Piece.eventsOf_cons, Piece.countOf_cons, Piece.stepsOf_cons] at hfits hopened ⊢
    rw [← List.append_assoc] at hfits
    have hp := hslots p List.mem_cons_self before (Piece.eventsOf slots ++ rest) none [] [] opened
      steps (fits_of_append hfits) (fun i hi => by have := hopened i hi; omega)
      (fun _ hi => absurd hi List.not_mem_nil) .none
    have hrest := @ih (fun p hp => hslots p (List.mem_cons_of_mem _ hp)) (before ++ p.events none)
      (steps ++ p.steps) hfits (fun i hi => by have := hopened i hi; simp; omega)
    simp only [List.length_append, Piece.length_events, append_append] at hrest
    rw [List.append_assoc, hp, ← Nat.add_assoc]
    exact hrest

/-- The slots of a node are resolved up to its end. -/
theorem resolveFrom_body {slots : List Piece} (hslots : ∀ p ∈ slots, Resolves text p)
    {before rest : List Event} {opened : List Nat} {steps : Array BuildStep}
    (hfits : Fits (before ++ Piece.eventsOf slots))
    (hopened : ∀ i ∈ opened, before.length + Piece.countOf slots + 1 ≤ i) :
    resolveFrom text before.length opened steps (Piece.eventsOf slots ++ .finish :: rest) =
      resolveFrom text (before.length + Piece.countOf slots + 1) opened
        (steps ++ (Piece.stepsOf slots ++ [.finish])) rest := by
  rw [resolveFrom_eventsOf hslots hfits fun i hi => Nat.le_of_succ_le (hopened i hi), resolveFrom,
    append_push]

end Slots

section Elements

variable {text : String} {here : Nat} {opened positions : List Nat} {steps : Array BuildStep}
  {rest : List Event} {kind : Kind} {forward : Option UInt32} {kinds : List Kind}

private theorem erase_opened (h : here ∉ positions) :
    (positions ++ here :: opened).erase here = positions ++ opened := by
  rw [List.erase_append_right _ h, List.erase_cons_head]

/-- The start of a node opens its parents, outermost first, and then the node. -/
theorem resolveFrom_start (hkind : kind ≠ .tombstone) (hopened : here ∉ opened)
    (hpositions : here ∉ positions)
    (hparents : parents here rest (here :: opened) forward =
      .ok (kinds, positions ++ here :: opened)) :
    resolveFrom text here opened steps (.start kind forward :: rest) =
      resolveFrom text (here + 1) (positions ++ opened)
        (steps ++ (kinds.reverse.map BuildStep.start ++ [.start kind])) rest := by
  rw [resolveFrom]
  simp only [List.contains_iff_mem, hopened, hkind, if_false, hparents]
  change resolveFrom text (here + 1) ((positions ++ here :: opened).erase here) _ rest = _
  rw [erase_opened hpositions, append_push]

/-- A placeholder opens its parents, outermost first. -/
theorem resolveFrom_missing (hpositions : here ∉ positions)
    (hparents : parents here rest (here :: opened) forward =
      .ok (kinds, positions ++ here :: opened)) :
    resolveFrom text here opened steps (.missing kind forward :: rest) =
      resolveFrom text (here + 1) (positions ++ opened)
        (steps ++ (kinds.reverse.map BuildStep.start ++ [.missing kind])) rest := by
  rw [resolveFrom]
  simp only [hparents]
  change resolveFrom text (here + 1) ((positions ++ here :: opened).erase here) _ rest = _
  rw [erase_opened hpositions, append_push]

/-- A start that was moved to an earlier place is passed over. -/
theorem resolveFrom_opened (hpositions : here ∉ positions) :
    resolveFrom text here (positions ++ here :: opened) steps (.start kind forward :: rest) =
      resolveFrom text (here + 1) (positions ++ opened) steps rest := by
  rw [resolveFrom, if_pos (by simp), erase_opened hpositions]

/-- A piece whose first event is the one that is told finds its parents from there. -/
theorem parents_of_linked_self {p : Piece} (hlinked : Linked p here rest forward kinds positions)
    (hmarker : p.marker = 0) (after : List Event) (hafter : after.length + 1 = p.count)
    (hnew : ∀ i ∈ positions, i ∉ opened) :
    parents here (after ++ rest) (here :: opened) forward =
      .ok (kinds, positions ++ here :: opened) := by
  have hnew' : ∀ i ∈ positions, i ∉ here :: opened := by
    intro i hi hmem
    rcases List.mem_cons.mp hmem with rfl | hmem
    · have := hlinked.le _ hi
      omega
    · exact hnew i hi hmem
  have hparents := parents_of_linked hlinked after (by omega) hnew'
  rwa [hmarker] at hparents

/-- What is never told about a parent is passed on. -/
theorem resolves_leaf {event : Event} {step : BuildStep}
    (h : ∀ (here : Nat) (opened : List Nat) (steps : Array BuildStep) (rest : List Event),
      resolveFrom text here opened steps (event :: rest) =
        resolveFrom text (here + 1) opened (steps.push step) rest) :
    Resolves text (.leaf event step) := by
  intro before rest forward kinds positions opened steps _ _ _ hlinked
  cases hlinked with
  | none => exact h ..
  | some hp => exact absurd hp (Piece.not_linkable_leaf event step)

/-- A token that stands in the text is cut out of it. -/
theorem resolves_token {t : Token} (ht : t.Placed text) :
    Resolves text (.leaf (.token t) t.step) :=
  resolves_leaf fun here opened steps rest => by
    rw [resolveFrom, ht.tokenStep_eq]
    rfl

/-- The event of a placeholder resolves to its step. -/
theorem resolves_missing (kind : Kind) : Resolves text (.missing kind) := by
  intro before rest forward kinds positions opened steps hfits hopened hnew hlinked
  have hparents := parents_of_linked_self hlinked rfl [] rfl hnew
  refine resolveFrom_missing (fun h => ?_) hparents
  have := hlinked.le _ h
  simp only [Piece.missing] at this
  omega

/-- The events of a node resolve to its steps if those of its slots do. -/
theorem resolves_node {slots : List Piece} (hkind : kind ≠ .tombstone)
    (hslots : ∀ p ∈ slots, Resolves text p) : Resolves text (.node kind slots) := by
  intro before rest forward kinds positions opened steps hfits hopened hnew hlinked
  have hle := hlinked.le
  have hparents := parents_of_linked_self hlinked rfl (Piece.eventsOf slots ++ [.finish])
    (by simp [Piece.node]) hnew
  simp only [Piece.node, List.append_assoc, List.cons_append, List.nil_append]
    at hfits hopened hle hparents ⊢
  have hbody := @resolveFrom_body text slots hslots (before ++ [.start kind forward]) rest
    (positions ++ opened) (steps ++ (kinds.reverse.map BuildStep.start ++ [.start kind]))
    (fits_of_append (b := [.finish]) (by simpa using hfits)) fun i hi => by
      rcases List.mem_append.mp hi with hi | hi
      · have := hle i hi
        simp only [List.length_append, List.length_cons, List.length_nil]
        omega
      · have := hopened i hi
        simp only [List.length_append, List.length_cons, List.length_nil]
        omega
  rw [resolveFrom_start hkind (fun h => by have := hopened _ h; omega)
    (fun h => by have := hle _ h; omega) hparents]
  simp only [List.length_append, List.length_singleton, append_append, List.append_assoc,
    List.singleton_append] at hbody
  rw [hbody, show before.length + (Piece.countOf slots + 2) =
    before.length + 1 + Piece.countOf slots + 1 by omega]

/-- A late node is opened before its first slot and passed over where it starts. -/
theorem resolves_late {first : Piece} {between tail : List Piece} (hkind : kind ≠ .tombstone)
    (hlinkable : first.Linkable) (hfirst : Resolves text first)
    (hbetween : ∀ p ∈ between, Resolves text p) (htail : ∀ p ∈ tail, Resolves text p) :
    Resolves text (.late kind first between tail) := by
  intro before rest forward kinds positions opened steps hfits hopened hnew hlinked
  have hle := hlinked.le
  have hchain := chain_of_linked hkind hlinked
  obtain ⟨start, hstart⟩ : ∃ start, start = before.length + first.count + Piece.countOf between :=
    ⟨_, rfl⟩
  obtain ⟨link, hlink⟩ : ∃ link, link = first.distance (Piece.countOf between) := ⟨_, rfl⟩
  simp only [Piece.late, ← hlink] at hfits hopened hle ⊢
  rw [← hstart] at hchain
  have hheld : Fits ((before ++ first.events (some link) ++ Piece.eventsOf between) ++
      [.start kind forward]) :=
    fits_of_append (b := Piece.eventsOf tail ++ [.finish]) (by simpa using hfits)
  have hlt : start < UInt32.size := by
    rw [hstart]
    simpa [Nat.add_assoc] using (fits_append_start_iff.mp hheld).2
  have hfits' := fits_of_append hheld
  have hstarts : ∀ i ∈ (positions ++ [start]) ++ opened, start ≤ i := by
    intro i hi
    rcases List.mem_append.mp hi with hi | hi
    · rcases List.mem_append.mp hi with hi | hi
      · have := hle i hi
        omega
      · exact Nat.le_of_eq (List.mem_singleton.mp hi).symm
    · have := hopened i hi
      omega
  -- the first slot opens the node and its parents, and the slots up to its start leave them open
  have hhead := hfirst before
    (Piece.eventsOf between ++ .start kind forward :: (Piece.eventsOf tail ++ .finish :: rest))
    (some link) (kind :: kinds) (positions ++ [start]) opened steps (fits_of_append hfits')
    (fun i hi => by have := hopened i hi; omega) (fun i hi hmem => by
      rcases List.mem_append.mp hi with hi | hi
      · exact hnew i hi hmem
      · have := hopened i hmem
        have := List.mem_singleton.mp hi
        omega)
    (hlink ▸ .some hlinkable (hstart ▸ hlt) (by
      rwa [← Piece.length_eventsOf, List.drop_left, Piece.length_eventsOf, ← hstart]))
  have hmiddle := @resolveFrom_eventsOf text between hbetween (before ++ first.events (some link))
    (.start kind forward :: (Piece.eventsOf tail ++ .finish :: rest))
    ((positions ++ [start]) ++ opened)
    (steps ++ ((kind :: kinds).reverse.map BuildStep.start ++ first.steps)) hfits'
    (fun i hi => by have := hstarts i hi; simp; omega)
  have hbody := @resolveFrom_body text tail htail
    (before ++ first.events (some link) ++ Piece.eventsOf between ++ [.start kind forward]) rest
    (positions ++ opened)
    (steps ++ ((kind :: kinds).reverse.map BuildStep.start ++ first.steps) ++
      Piece.stepsOf between)
    (fits_of_append (b := [.finish]) (by simpa using hfits)) fun i hi => by
      simp only [List.length_append, Piece.length_events, Piece.length_eventsOf, List.length_cons,
        List.length_nil]
      rcases List.mem_append.mp hi with hi | hi
      · have := hle i hi
        omega
      · have := hopened i hi
        omega
  simp only [List.length_append, Piece.length_events, Piece.length_eventsOf, List.length_singleton,
    ← hstart] at hmiddle hbody
  simp only [List.append_assoc, List.cons_append, List.nil_append] at hhead hmiddle hbody ⊢
  rw [hhead, hmiddle, resolveFrom_opened fun h => by have := hle _ h; omega, hbody,
    show start + 1 + Piece.countOf tail + 1 =
      before.length + (first.count + Piece.countOf between + Piece.countOf tail + 2) by omega]
  simp [append_append]

end Elements

/-- Resolving the events of a piece gives the steps that build its slot. -/
theorem resolve_of_resolves {text : String} {p : Piece} (hp : Resolves text p)
    (hfits : Fits (p.events none)) : resolve text (p.events none) = .ok p.steps := by
  have h := hp [] [] none [] [] [] #[] hfits (fun _ hi => absurd hi List.not_mem_nil)
    (fun _ hi => absurd hi List.not_mem_nil) .none
  rw [List.append_nil] at h
  rw [resolve, show resolveFrom text 0 [] #[] (p.events none) = _ from h, resolveFrom]
  change Except.ok ((#[] : Array BuildStep) ++ p.steps).toList = _
  simp

end Event

namespace Sketch

/-- The piece that writes a sketch down. -/
def piece (s : Sketch) : Piece where
  events forward := s.events forward
  count := s.eventCount
  marker := s.marker
  steps := s.steps
  length_events := s.length_events

/-- The pieces of sketches have the events of the sketches. -/
theorem eventsOf_map_piece (slots : List Sketch) :
    Piece.eventsOf (slots.map piece) = eventsOf slots := by
  induction slots with
  | nil => rfl
  | cons s slots ih => rw [List.map_cons, Piece.eventsOf_cons, ih, eventsOf, piece]

theorem countOf_map_piece (slots : List Sketch) :
    Piece.countOf (slots.map piece) = eventCountOf slots := by
  induction slots with
  | nil => rfl
  | cons s slots ih => rw [List.map_cons, Piece.countOf_cons, ih, eventCountOf, piece]

/-- The pieces of sketches have the steps of the sketches. -/
theorem stepsOf_map_piece (slots : List Sketch) :
    Piece.stepsOf (slots.map piece) = stepsOf slots := by
  induction slots with
  | nil => rfl
  | cons s slots ih => rw [List.map_cons, Piece.stepsOf_cons, ih, stepsOf, piece]

theorem piece_node (kind : Kind) (slots : List Sketch) :
    (node kind false slots).piece = .node kind (slots.map piece) := by
  simp [piece, Piece.node, events, eventCount, marker, steps, eventsOf_map_piece,
    countOf_map_piece, stepsOf_map_piece]

/-- A late node of a sketch starts right after its first slot. -/
theorem piece_late (kind : Kind) (first : Sketch) (tail : List Sketch) :
    (node kind true (first :: tail)).piece = .late kind first.piece [] (tail.map piece) := by
  simp only [Piece.late, eventsOf_map_piece, countOf_map_piece, stepsOf_map_piece]
  refine Piece.mk.injEq .. ▸ ⟨rfl, rfl, rfl, ?_⟩
  simp [steps, stepsOf, piece, Piece.stepsOf]

/-- The events of a sketch that conforms are resolved to its steps, if its tokens stand in the
text. -/
theorem resolves_of_conforms {text : String} (s : Sketch) :
    s.Conforms → (∀ t ∈ s.tokens, t.Placed text) → Event.Resolves text s.piece := by
  induction s using Sketch.induct with
  | token t => exact fun _ hplaced => Event.resolves_token (hplaced t (List.mem_singleton_self t))
  | missing kind => exact fun _ _ => Event.resolves_missing kind
  | absent => exact fun _ _ => Event.resolves_leaf fun _ _ _ _ => rfl
  | node kind late slots ih =>
    intro hnode hplaced
    have hslots : ∀ s ∈ slots, Event.Resolves text s.piece := fun s hs =>
      ih s hs (hnode.of_mem hs) fun t ht => hplaced t (mem_tokensOf.mpr ⟨s, hs, ht⟩)
    obtain ⟨hkind, -, hlate, -⟩ := hnode
    cases late with
    | false =>
      rw [piece_node]
      exact Event.resolves_node hkind (List.forall_mem_map.mpr hslots)
    | true =>
      obtain ⟨first, tail, rfl, hfirst⟩ := hlate rfl
      rw [piece_late]
      exact Event.resolves_late hkind (first.events_split hfirst) (hslots first List.mem_cons_self)
        (fun _ hp => absurd hp List.not_mem_nil)
        (List.forall_mem_map.mpr fun s hs => hslots s (List.mem_cons_of_mem _ hs))

end Sketch

/-- Resolving the events of a sketch gives the steps that build it. -/
theorem Event.resolve_events {text : String} {s : Sketch} (hs : s.Conforms)
    (hplaced : ∀ t ∈ s.tokens, t.Placed text) (hfits : Fits (s.events none)) :
    resolve text (s.events none) = .ok s.steps :=
  resolve_of_resolves (s.resolves_of_conforms hs hplaced) hfits

end Verbatim
