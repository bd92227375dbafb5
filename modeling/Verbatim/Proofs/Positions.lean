import Verbatim.Proofs.Parsing
import Verbatim.Proofs.Wrapping

/-!
# Positions of events

A parse is a sequence of operations that each write one event down, so the number of an operation is
the position of its event, and with at most twelve events for each token no position of a text of
less than 2^28 bytes is cut by the cast to 32 bits. A distance to a parent is therefore what it was
meant to be: it leads from the element to the start of the node that was opened around it.
-/

namespace Verbatim

namespace Sketch

mutual
/-- The operations that write a slot down. -/
def operations : Sketch → List Operation
  | token _ => [.token]
  | missing kind => [.missing kind]
  | absent => [.absent]
  | node kind true (first :: rest) =>
    first.operations ++ .precede :: (operationsOf rest ++ [.complete kind])
  | node kind _ slots => .start :: (operationsOf slots ++ [.complete kind])
/-- The operations that write several slots down. -/
def operationsOf : List Sketch → List Operation
  | [] => []
  | s :: rest => s.operations ++ operationsOf rest
end

/-- The operations that write a file down. -/
def fileOperations (items : List Sketch) : List Operation :=
  .start :: (node .itemList false items).operations ++ [.endOfText, .complete .sourceFile]

private theorem length_operationsOf_of {slots : List Sketch}
    (h : ∀ s ∈ slots, s.operations.length = s.eventCount) :
    (operationsOf slots).length = eventCountOf slots := by
  induction slots with
  | nil => rfl
  | cons s rest ih =>
    simp only [operationsOf, eventCountOf, List.length_append, h s List.mem_cons_self]
    rw [ih fun t ht => h t (List.mem_cons_of_mem _ ht)]

/-- There is an operation for each event. -/
theorem length_operations (s : Sketch) : s.operations.length = s.eventCount := by
  induction s using induct with
  | token t => rfl
  | missing kind => rfl
  | absent => rfl
  | node kind late slots ih =>
    have hslots := length_operationsOf_of ih
    cases late with
    | false => simp [operations, eventCount, hslots]
    | true =>
      cases slots with
      | nil => rfl
      | cons first rest =>
        have hrest := length_operationsOf_of fun s hs => ih s (List.mem_cons_of_mem _ hs)
        simp only [operations, eventCount, eventCountOf, List.length_append, List.length_cons,
          List.length_nil, ih first List.mem_cons_self, hrest]
        omega

theorem length_fileOperations (items : List Sketch) (eof : Token) :
    (fileOperations items).length = (file items eof).eventCount := by
  simp only [fileOperations, List.length_append, List.length_cons, List.length_nil,
    length_operations, file, eventCount, eventCountOf]

end Sketch

namespace Operation

open Grammar

variable {p q r : Reader} {d e f : Draft} {hand hand' hand'' : Hand}

theorem runs_cons {o : Operation} {operations : List Operation}
    (ho : Runs (o.perform hand) p d hand' q e)
    (hrest : Runs (operations.foldlM perform hand') q e hand'' r f) :
    Runs ((o :: operations).foldlM perform hand) p d hand'' r f := by
  rw [List.foldlM_cons]
  exact ho.bind hrest

theorem runs_append {a b : List Operation} (ha : Runs (a.foldlM perform hand) p d hand' q e)
    (hb : Runs (b.foldlM perform hand') q e hand'' r f) :
    Runs ((a ++ b).foldlM perform hand) p d hand'' r f := by
  rw [List.foldlM_append]
  exact ha.bind hb

theorem runs_nil : Runs (([] : List Operation).foldlM perform hand) p d hand p d :=
  .pure hand

/-- The operations of a slot fill it. What is completed last is the slot, if it holds an element. -/
def Fills (operations : List Operation) (s : Sketch) : Prop :=
  ∀ (rest : List Token) (n : Nesting) (hand : Hand) (d : Draft), ∃ last,
    (s.isElement = true → last = some (d.mark s)) ∧
      Runs (operations.foldlM perform hand) ⟨s.tokens ++ rest, n⟩ d ⟨hand.opened, last⟩ ⟨rest, n⟩
        (d.fill s)

/-- The operations of several slots fill them, if those of each do. -/
theorem exists_runs_operationsOf {slots : List Sketch} (h : ∀ s ∈ slots, Fills s.operations s)
    (rest : List Token) (n : Nesting) (hand : Hand) (d : Draft) :
    ∃ last, Runs ((Sketch.operationsOf slots).foldlM perform hand)
      ⟨Sketch.tokensOf slots ++ rest, n⟩ d ⟨hand.opened, last⟩ ⟨rest, n⟩ (d.fills slots) := by
  induction slots generalizing hand d with
  | nil => exact ⟨hand.last, d.fills_nil.symm ▸ runs_nil⟩
  | cons s slots ih =>
    obtain ⟨last, -, hs⟩ := h s List.mem_cons_self (Sketch.tokensOf slots ++ rest) n hand d
    obtain ⟨last', hslots⟩ := ih (fun t ht => h t (List.mem_cons_of_mem _ ht))
      ⟨hand.opened, last⟩ (d.fill s)
    rw [← List.append_assoc] at hs
    rw [Draft.fill_fills] at hslots
    exact ⟨last', runs_append hs hslots⟩

/-- Closing the innermost open node. -/
theorem runs_close {m : Marker} {opened : List Marker} {last : Option Completed} {c : Completed}
    {kind : Kind} (h : Runs (Grammar.complete m kind) p d c q e) :
    Runs ([Operation.complete kind].foldlM perform ⟨m :: opened, last⟩) p d ⟨opened, some c⟩ q e :=
  runs_cons (h.bind (.pure _)) runs_nil

/-- The operations of a sketch fill a slot with it. -/
theorem fills_operations {s : Sketch} (hs : s.Conforms) : Fills s.operations s := by
  induction s using Sketch.induct with
  | token t =>
    intro rest n hand d
    exact ⟨hand.last, fun h => (by cases h), runs_cons (runs_advance.bind (.pure hand)) runs_nil⟩
  | missing kind =>
    intro rest n hand d
    exact ⟨_, fun _ => rfl, runs_cons ((runs_missing kind).bind (.pure _)) runs_nil⟩
  | absent =>
    intro rest n hand d
    exact ⟨hand.last, fun h => (by cases h), runs_cons (runs_absent.bind (.pure hand)) runs_nil⟩
  | node kind late slots ih =>
    intro rest n hand d
    have hslots : ∀ s ∈ slots, Fills s.operations s := fun s hmem => ih s hmem (hs.of_mem hmem)
    cases late with
    | false =>
      obtain ⟨last, hruns⟩ := exists_runs_operationsOf hslots rest n
        ⟨⟨d.size.toUInt32⟩ :: hand.opened, none⟩ d.start
      exact ⟨_, fun _ => rfl, runs_cons (runs_start.bind (.pure _))
        (runs_append hruns (runs_close runs_complete))⟩
    | true =>
      obtain ⟨first, others, rfl, hfirst⟩ := hs.2.2.1 rfl
      obtain ⟨last, hlast, hruns⟩ := hslots first List.mem_cons_self
        (Sketch.tokensOf others ++ rest) n hand d
      obtain rfl := hlast hfirst
      obtain ⟨last, hothers⟩ := exists_runs_operationsOf
        (fun s hmem => hslots s (List.mem_cons_of_mem _ hmem)) rest n
        ⟨⟨(d.size + first.eventCount).toUInt32⟩ :: hand.opened, none⟩ (d.startAround first)
      rw [← List.append_assoc] at hruns
      exact ⟨_, fun _ => rfl, runs_append hruns (runs_cons ((runs_precede hfirst).bind (.pure _))
        (runs_append hothers (runs_close runs_complete_around)))⟩

end Operation

/-- The distance to a parent that was added later. -/
def Event.forward? : Event → Option UInt32
  | .start _ forward | .missing _ forward => forward
  | .token _ | .absent | .finish => none

/-- What happens to the events of a parser: starts stay starts, and no link is there that was not,
except for the given one. -/
structure Parser.Keeps (link : Option (Nat × UInt32)) (x y : Parser) : Prop where
  isStart : ∀ (i : Nat) (e : Event), x.events[i]? = some e → e.isStart = true →
    ∃ e' : Event, y.events[i]? = some e' ∧ e'.isStart = true
  forward : ∀ (i : Nat) (e : Event) (d : UInt32), y.events[i]? = some e → e.forward? = some d →
    link = some (i, d) ∨ ∃ e' : Event, x.events[i]? = some e' ∧ e'.forward? = some d

namespace Parser

variable {link : Option (Nat × UInt32)} {x y z : Parser}

theorem Keeps.trans (h : x.Keeps none y) (h' : y.Keeps link z) : x.Keeps link z where
  isStart i e hget hstart := by
    obtain ⟨e', hget', hstart'⟩ := h.isStart i e hget hstart
    exact h'.isStart i e' hget' hstart'
  forward i e d hget hforward := by
    rcases h'.forward i e d hget hforward with hnew | ⟨e', hget', hforward'⟩
    · exact .inl hnew
    · rcases h.forward i e' d hget' hforward' with hnew | hold
      · cases hnew
      · exact .inr hold

theorem keeps_of_eq (hy : y.events = x.events) : x.Keeps none y where
  isStart _ e hget hstart := ⟨e, hy ▸ hget, hstart⟩
  forward _ e _ hget hforward := .inr ⟨e, hy ▸ hget, hforward⟩

/-- Writing an event down that has no link. -/
theorem keeps_push {e : Event} (hy : y.events = x.events.push e) (he : e.forward? = none) :
    x.Keeps none y where
  isStart i e hget hstart := by
    have hlt := (Array.getElem?_eq_some_iff.mp hget).1
    refine ⟨e, ?_, hstart⟩
    rw [hy, Array.getElem?_push, if_neg (Nat.ne_of_lt hlt), hget]
  forward i e' d hget hforward := by
    rw [hy, Array.getElem?_push] at hget
    split at hget
    · obtain rfl := Option.some.inj hget
      rw [he] at hforward
      cases hforward
    · exact .inr ⟨e', hget, hforward⟩

/-- Changing an event that stays of its sort, and whose link stays or is the given one. -/
theorem keeps_set {i : Nat} {old new : Event} (hold : x.events[i]? = some old)
    (hstart : new.isStart = old.isStart)
    (hlink : ∀ d, new.forward? = some d → link = some (i, d) ∨ old.forward? = some d)
    (hy : y.events = x.events.setIfInBounds i new) : x.Keeps link y where
  isStart j e hget he := by
    rw [hy, Array.getElem?_setIfInBounds]
    split
    · next hij =>
      subst hij
      cases hold.symm.trans hget
      exact ⟨new, if_pos (Array.getElem?_eq_some_iff.mp hold).1, hstart.trans he⟩
    · exact ⟨e, hget, he⟩
  forward j e d hget hforward := by
    rw [hy, Array.getElem?_setIfInBounds] at hget
    split at hget
    · next hij =>
      subst hij
      rw [if_pos (Array.getElem?_eq_some_iff.mp hold).1] at hget
      obtain rfl := Option.some.inj hget
      exact (hlink d hforward).imp id fun hd => ⟨old, hold, hd⟩
    · exact .inr ⟨e, hget, hforward⟩

/-- Closing a node names its start and keeps the link there. -/
theorem keeps_complete {m : Marker} {kind : Kind} {c : Completed}
    (h : Grammar.complete m kind x = .ok (c, y)) :
    y.events.size = x.events.size + 1 ∧ x.Keeps none y := by
  obtain ⟨_, z, hname, hrest⟩ := Grammar.exists_of_bind_eq_ok h
  cases hrest
  unfold Grammar.change Grammar.nameStart at hname
  split at hname
  · next old forward hget =>
    cases hname
    have hset := @keeps_set none x { x with
      events := x.events.setIfInBounds m.position.toNat (.start kind forward) } _ _
      (.start kind forward) hget rfl (fun d hd => .inr hd) rfl
    exact ⟨by simp [emit], hset.trans (keeps_push rfl rfl)⟩
  · cases hname

/-- Opening a node around an element links the element to it. -/
theorem keeps_precede {c : Completed} {m : Marker} (h : Grammar.precede c x = .ok (m, y)) :
    c.position ≤ x.position ∧ y.events.size = x.events.size + 1 ∧
      x.Keeps (some (c.position.toNat, x.position - c.position)) y ∧
        ∃ e : Event, y.events[x.events.size]? = some e ∧ e.isStart = true := by
  have hopened := (Grammar.bind_eq_of_ok (Grammar.start_eq x)).symm.trans h
  split at hopened
  · next hle =>
    obtain ⟨_, z, hlink, hrest⟩ := Grammar.exists_of_bind_eq_ok hopened
    cases hrest
    obtain ⟨hsize, hset⟩ : y.events.size = x.events.size + 1 ∧
        (x.emit .unnamed).Keeps (some (c.position.toNat, x.position - c.position)) y := by
      unfold Grammar.change Grammar.linkParent at hlink
      split at hlink
      · next kind old hget =>
        cases hlink
        exact ⟨by simp [emit], @keeps_set _ _ _ _ _ (.start kind (some _)) hget rfl
          (fun d hd => .inl (Option.some.inj hd ▸ rfl)) rfl⟩
      · next kind old hget =>
        cases hlink
        exact ⟨by simp [emit], @keeps_set _ _ _ _ _ (.missing kind (some _)) hget rfl
          (fun d hd => .inl (Option.some.inj hd ▸ rfl)) rfl⟩
      · cases hlink
    have hstart : (x.emit .unnamed).events[x.events.size]? = some .unnamed := by
      simp [emit]
    exact ⟨hle, hsize, (keeps_push rfl rfl).trans hset, hset.isStart _ _ hstart rfl⟩
  · cases hopened

end Parser

namespace Operation

variable {s : TokenStream} {hand hand' : Hand} {x y : Parser} {o : Operation}

/-- An operation writes at most one event down, and makes no link unless it opens a node around an
element: then it links the element to this node. -/
theorem keeps_perform (h : o.perform hand x = .ok (hand', y)) :
    y.events.size ≤ x.events.size + 1 ∧ (x.Keeps none y ∨
      o = .precede ∧ ∃ c, hand.last = some c ∧ c.position ≤ x.position ∧
        x.Keeps (some (c.position.toNat, x.position - c.position)) y ∧
          ∃ e : Event, y.events[x.events.size]? = some e ∧ e.isStart = true) := by
  cases o with
  | start =>
    cases h
    exact ⟨Nat.le_of_eq (Array.size_push _), .inl (Parser.keeps_push rfl rfl)⟩
  | token =>
    cases h
    unfold Parser.consume
    split
    · exact ⟨Nat.le_succ _, .inl (Parser.keeps_of_eq rfl)⟩
    · exact ⟨Nat.le_of_eq (Array.size_push _), .inl (Parser.keeps_push rfl rfl)⟩
  | endOfText =>
    obtain ⟨_, z, hfinish, hrest⟩ := Grammar.exists_of_bind_eq_ok h
    cases hrest
    obtain ⟨_, w, hinsist, hemit⟩ := Grammar.exists_of_bind_eq_ok hfinish
    obtain rfl := Grammar.eq_of_insist_eq_ok hinsist
    cases hemit
    exact ⟨Nat.le_of_eq (Array.size_push _), .inl (Parser.keeps_push rfl rfl)⟩
  | missing kind =>
    cases h
    exact ⟨Nat.le_of_eq (Array.size_push _), .inl (Parser.keeps_push rfl rfl)⟩
  | absent =>
    cases h
    exact ⟨Nat.le_of_eq (Array.size_push _), .inl (Parser.keeps_push rfl rfl)⟩
  | complete kind =>
    cases hopened : hand.opened with
    | nil =>
      simp only [perform, hopened] at h
      cases h
    | cons m opened =>
      simp only [perform, hopened] at h
      obtain ⟨c, z, hcomplete, hrest⟩ := Grammar.exists_of_bind_eq_ok h
      cases hrest
      obtain ⟨hsize, hkeeps⟩ := Parser.keeps_complete hcomplete
      exact ⟨Nat.le_of_eq hsize, .inl hkeeps⟩
  | precede =>
    cases hlast : hand.last with
    | none =>
      simp only [perform, hlast] at h
      cases h
    | some c =>
      simp only [perform, hlast] at h
      obtain ⟨m, z, hprecede, hrest⟩ := Grammar.exists_of_bind_eq_ok h
      cases hrest
      obtain ⟨hle, hsize, hkeeps, hstart⟩ := Parser.keeps_precede hprecede
      exact ⟨Nat.le_of_eq hsize, .inr ⟨rfl, c, rfl, hle, hkeeps, hstart⟩⟩

/-- Operations lead from the start of a text to a parser and to what is kept. -/
def Reached (s : TokenStream) (operations : List Operation) (hand : Hand) (x : Parser) : Prop :=
  operations.foldlM perform {} (Parser.ofStream s) = .ok (hand, x)

/-- A link was made by one of the operations: that operation opened a node around the element that
was completed last, this element stands where the link does, and the link leads to the event that
the operation wrote down. -/
def LinkedBy (s : TokenStream) (operations : List Operation) (i : Nat) (d : UInt32) : Prop :=
  ∃ before after hand x c, operations = before ++ .precede :: after ∧
    before.length = i + d.toNat ∧ Reached s before hand x ∧ hand.last = some c ∧
      c.position.toNat = i

/-- Each operation wrote one event down, and all links lead where they should. -/
structure Tracked (s : TokenStream) (operations : List Operation) (x : Parser) : Prop where
  size_eq : x.events.size = operations.length
  links : ∀ (i : Nat) (e : Event) (d : UInt32), x.events[i]? = some e → e.forward? = some d →
    LinkedBy s operations i d ∧ ∃ e' : Event, x.events[i + d.toNat]? = some e' ∧ e'.isStart = true

theorem Reached.snoc {operations : List Operation} (hx : Reached s operations hand x)
    (hstep : o.perform hand x = .ok (hand', y)) : Reached s (operations ++ [o]) hand' y := by
  rw [Reached, List.foldlM_append, Grammar.bind_eq_of_ok hx, List.foldlM_cons,
    Grammar.bind_eq_of_ok hstep]
  rfl

theorem LinkedBy.snoc {operations : List Operation} {i : Nat} {d : UInt32}
    (h : LinkedBy s operations i d) (o : Operation) : LinkedBy s (operations ++ [o]) i d := by
  obtain ⟨before, after, hand, x, c, rfl, h⟩ := h
  exact ⟨before, after ++ [o], hand, x, c, by simp, h⟩

/-- One more operation that writes an event down at a position that fits. -/
theorem Tracked.step {operations : List Operation} (h : Tracked s operations x)
    (hx : Reached s operations hand x) (hstep : o.perform hand x = .ok (hand', y))
    (hsize : y.events.size = x.events.size + 1) (hlt : operations.length < UInt32.size) :
    Tracked s (operations ++ [o]) y := by
  have hold {link : Option (Nat × UInt32)} (hkeeps : x.Keeps link y) (i : Nat) (e : Event)
      (d : UInt32) (hget : x.events[i]? = some e) (hforward : e.forward? = some d) :
      LinkedBy s (operations ++ [o]) i d ∧
        ∃ e' : Event, y.events[i + d.toNat]? = some e' ∧ e'.isStart = true := by
    obtain ⟨hlinked, e', hget', hstart⟩ := h.links i e d hget hforward
    exact ⟨hlinked.snoc o, hkeeps.isStart _ e' hget' hstart⟩
  refine ⟨by rw [hsize, h.size_eq, List.length_append]; rfl, fun i e d hget hforward => ?_⟩
  rcases (keeps_perform hstep).2 with hkeeps | ⟨rfl, c, hlast, hle, hkeeps, hstart⟩
  · rcases hkeeps.forward i e d hget hforward with hnew | ⟨e', hget', hforward'⟩
    · cases hnew
    · exact hold hkeeps i e' d hget' hforward'
  · rcases hkeeps.forward i e d hget hforward with hnew | ⟨e', hget', hforward'⟩
    · obtain ⟨rfl, rfl⟩ := Prod.mk.injEq .. ▸ Option.some.inj hnew
      -- the position is exact, so the distance added to the element leads back to it
      have hposition : x.position.toNat = operations.length := by
        rw [Parser.position, h.size_eq, Grammar.toNat_toUInt32_of_lt hlt]
      have htarget : operations.length =
          c.position.toNat + (x.position - c.position).toNat := by
        rw [UInt32.toNat_sub_of_le _ _ hle, hposition]
        have := UInt32.le_iff_toNat_le.mp hle
        omega
      rw [← htarget, ← h.size_eq]
      exact ⟨⟨operations, [], hand, x, c, rfl, htarget, hx, hlast, rfl⟩, hstart⟩
    · exact hold hkeeps i e' d hget' hforward'

/-- Each operation writes at most one event down. -/
theorem size_le_of_foldlM {operations : List Operation}
    (h : operations.foldlM perform hand x = .ok (hand', y)) :
    y.events.size ≤ x.events.size + operations.length := by
  induction operations generalizing hand x with
  | nil =>
    cases h
    exact Nat.le_refl _
  | cons o operations ih =>
    rw [List.foldlM_cons] at h
    obtain ⟨mid, z, hstep, hrest⟩ := Grammar.exists_of_bind_eq_ok h
    have hle := ih hrest
    have hle' := (keeps_perform hstep).1
    simp only [List.length_cons]
    omega

/-- Operations that write one event down each, at positions that fit. -/
theorem Tracked.run {before operations : List Operation} (h : Tracked s before x)
    (hx : Reached s before hand x) (hrun : operations.foldlM perform hand x = .ok (hand', y))
    (hsize : y.events.size = before.length + operations.length)
    (hfit : before.length + operations.length ≤ UInt32.size) :
    Tracked s (before ++ operations) y := by
  induction operations generalizing before hand x with
  | nil =>
    cases hrun
    rwa [List.append_nil]
  | cons o operations ih =>
    rw [List.foldlM_cons] at hrun
    obtain ⟨mid, z, hstep, hrest⟩ := Grammar.exists_of_bind_eq_ok hrun
    -- no operation writes more than one event down, so none can write less
    have hle := (keeps_perform hstep).1
    have hle' := size_le_of_foldlM hrest
    have hbefore := h.size_eq
    simp only [List.length_cons] at hsize hfit
    have hz := h.step hx hstep (by omega) (by omega)
    have hlength : (before ++ [o]).length = before.length + 1 := by simp
    have hrun := ih hz (hx.snoc hstep) hrest (by omega) (by omega)
    rwa [List.append_assoc] at hrun

/-- Before each operation there are as many events as operations were performed. -/
theorem Reached.exists_before {before after : List Operation}
    (h : Reached s (before ++ after) hand y) (hsize : y.events.size = (before ++ after).length) :
    ∃ hand' x, Reached s before hand' x ∧ x.events.size = before.length := by
  rw [Reached, List.foldlM_append] at h
  obtain ⟨hand', x, hx, hrest⟩ := Grammar.exists_of_bind_eq_ok h
  have hle : x.events.size ≤ 0 + before.length := size_le_of_foldlM hx
  have hle' := size_le_of_foldlM hrest
  rw [List.length_append] at hsize
  exact ⟨hand', x, hx, by omega⟩

/-- The operations of a file write it down, if every node starts at a position that fits. -/
theorem exists_reached_file {text : String} {items : List Sketch} {n : Nesting}
    (hreads : Reads Phrase.items ⟨(tokenize text).tokens, {}⟩ items ⟨[], n⟩)
    (hfits : Event.Fits ((Sketch.file items (tokenize text).eof).events none)) :
    ∃ hand x, Reached (tokenize text) (Sketch.fileOperations items) hand x ∧
      x.events.toList = (Sketch.file items (tokenize text).eof).events none := by
  have htokens := hreads.tokensOf_append_rest
  simp only [List.append_nil, Goal.held, Sketch.tokensOf, List.nil_append] at htokens
  have hconforms : (Sketch.node .itemList false items).Conforms :=
    hreads.conforms_file.of_mem List.mem_cons_self
  obtain ⟨last, -, hruns⟩ := fills_operations hconforms [] {} ⟨[⟨(0 : Nat).toUInt32⟩], none⟩
    (Draft.start {})
  rw [Sketch.tokens, htokens, List.append_nil] at hruns
  have hstart : Grammar.Runs (perform {} .start) ⟨(tokenize text).tokens, {}⟩ {}
      ⟨[⟨(0 : Nat).toUInt32⟩], none⟩ ⟨(tokenize text).tokens, {}⟩ (Draft.start {}) :=
    Grammar.runs_start.bind (.pure _)
  have hclose := @Grammar.runs_complete ⟨[], {}⟩ {}
    [.node .itemList false items, .token (tokenize text).eof] .sourceFile
  have hfits' := hclose.fits (by rwa [Draft.events_fill_empty])
  rcases (runs_cons hstart hruns).run (.ofStream (tokenize text)) rfl (Parser.shows_base _) with
    ⟨x, hx, hreader, heof, hshows⟩ | ⟨-, hnot⟩
  · have hend : Grammar.finishInput x = .ok ((), x.emit (.token (tokenize text).eof)) := by
      rw [Grammar.finishInput_eq (by rw [hreader]; rfl), heof]
      rfl
    rcases hclose.run (x.emit (.token (tokenize text).eof)) hreader (hshows.fill_token _) with
      ⟨y, hy, -, -, hfile⟩ | ⟨-, hnot⟩
    · have hended := Reached.snoc (o := .endOfText) hx (Grammar.bind_eq_of_ok hend)
      have hclosed := hended.snoc (o := .complete .sourceFile) (Grammar.bind_eq_of_ok hy)
      rw [List.append_assoc] at hclosed
      refine ⟨_, y, hclosed, ?_⟩
      rw [← Draft.events_fill_empty] at hfits ⊢
      exact hfile.exact hfits
    · rw [Draft.events_fill_empty] at hnot
      exact absurd hfits hnot
  · exact absurd (@Draft.fits_of_fill ((Draft.start {}).fill _) _ hfits') hnot

/-- A parser at the start of a text. -/
theorem tracked_nil (s : TokenStream) : Tracked s [] (.ofStream s) where
  size_eq := rfl
  links _ _ _ hget := by cases hget

end Operation

/-- A parse writes at most twelve events down for each token, with the end of the text as one. In a
text of less than 2^28 bytes the cast to 32 bits keeps every number of events on the way. The events
are written down by operations, one each, and before every operation, among them those that open a
node or stand in for an element, the position is the number of events. Every distance to a parent
leads from the element to the start of the node that was opened around it. -/
theorem event_positions_exact (text : String) :
    ((∃ y, (tokenize text).parsed = .ok y ∧ y.events.size ≤ 12 * (tokenize text).toList.length) ∨
      (∃ fault, (tokenize text).parsed = .error fault ∧ fault.isMisplaced = true) ∧
        UInt32.size < 12 * (tokenize text).toList.length) ∧
    (text.utf8ByteSize < 1 <<< 28 → ∃ y operations hand x, (tokenize text).parsed = .ok y ∧
      (∀ n ≤ y.events.size, n.toUInt32.toNat = n) ∧
      Operation.Reached (tokenize text) operations hand x ∧ x.events = y.events ∧
      (∀ before o after, operations = before ++ o :: after → ∃ hand z,
        Operation.Reached (tokenize text) before hand z ∧ z.events.size = before.length ∧
          z.position.toNat = z.events.size) ∧
      ∀ (i : Nat) (e : Event) (d : UInt32), y.events[i]? = some e → e.forward? = some d →
        Operation.LinkedBy (tokenize text) operations i d ∧
          ∃ e' : Event, y.events[i + d.toNat]? = some e' ∧ e'.isStart = true) := by
  have hs : ∀ t ∈ (tokenize text).tokens, t.kind ≠ .eof :=
    fun t ht => (solid_of_mem_tokenize text t ht).ne_eof
  have hlength : (tokenize text).toList.length = (tokenize text).tokens.length + 1 := by
    rw [TokenStream.toList, List.length_append, List.length_singleton]
  refine ⟨?_, fun hlen => ?_⟩
  · rw [hlength]
    rcases TokenStream.parsed_cases hs with ⟨y, items, hy, -, -, hsize⟩ | hfault
    · exact .inl ⟨y, hy, by omega⟩
    · exact .inr hfault
  · obtain ⟨y, items, hy, hreads, hfits, hevents⟩ := TokenStream.exists_parsed_events hlen
    obtain ⟨hand, x, hx, hxevents⟩ := Operation.exists_reached_file hreads hfits
    have heq : x.events = y.events := Array.ext' (hxevents.trans hevents.symm)
    have hcount := Sketch.length_fileOperations items (tokenize text).eof
    have hsize : x.events.size = (Sketch.fileOperations items).length := by
      rw [hcount, ← Array.length_toList, hxevents, Sketch.length_events]
    have hbound := Sketch.eventCount_file_le hreads (tokenize text).eof
    have htokens := Nat.lt_of_le_of_lt (length_tokenize_le text) hlen
    have hlimit : UInt32.size = 1 <<< 32 := rfl
    have hfit : (Sketch.fileOperations items).length < UInt32.size := by omega
    have htracked := (Operation.tracked_nil (tokenize text)).run rfl hx (by simpa using hsize)
      (by simpa using Nat.le_of_lt hfit)
    refine ⟨y, _, hand, x, hy, fun n hn => ?_, hx, heq, fun before o after hsplit => ?_, ?_⟩
    · rw [← heq, hsize] at hn
      exact Grammar.toNat_toUInt32_of_lt (Nat.lt_of_le_of_lt hn hfit)
    · rw [hsplit] at hx hsize hfit
      obtain ⟨hand', z, hz, hzsize⟩ := hx.exists_before hsize
      refine ⟨hand', z, hz, hzsize, ?_⟩
      rw [Parser.position, hzsize, Grammar.toNat_toUInt32_of_lt]
      simp only [List.length_append, List.length_cons] at hfit
      omega
    · rw [← heq]
      exact htracked.links

/-- A number that becomes the left side of a sum, and a name that becomes a callee. -/
theorem event_positions_exact_sum :
    ∃ y operations, (tokenize "let x = 1 + f(2)").parsed = .ok y ∧
      y.events[8]? = some (.start .literalExpr (some 3)) ∧
      y.events[11]? = some (.start .binaryExpr none) ∧
      Operation.LinkedBy (tokenize "let x = 1 + f(2)") operations 8 3 ∧
      y.events[13]? = some (.start .nameExpr (some 3)) ∧
      y.events[16]? = some (.start .callExpr none) ∧
      Operation.LinkedBy (tokenize "let x = 1 + f(2)") operations 13 3 := by
  obtain ⟨-, hexact⟩ := event_positions_exact "let x = 1 + f(2)"
  obtain ⟨y, operations, hand, x, hy, -, -, -, -, hlinks⟩ := hexact (by decide)
  have hevents : ((tokenize "let x = 1 + f(2)").parsed.map fun y =>
      [8, 11, 13, 16].map fun i => y.events[i]?).toOption =
      some [some (.start .literalExpr (some 3)), some (.start .binaryExpr none),
        some (.start .nameExpr (some 3)), some (.start .callExpr none)] := by
    decide +kernel
  rw [hy] at hevents
  simp only [Except.map, Except.toOption, List.map_cons, List.map_nil, Option.some.injEq,
    List.cons.injEq] at hevents
  obtain ⟨hnumber, hsum, hname, hcall, -⟩ := hevents
  exact ⟨y, operations, hy, hnumber, hsum, (hlinks 8 _ 3 hnumber rfl).1, hname, hcall,
    (hlinks 13 _ 3 hname rfl).1⟩

end Verbatim
