import Verbatim.Proofs.Draft

/-!
# Running a piece of the grammar

`Runs g p d a q e` says what a piece `g` of the grammar does: where the reader is `p` and the parser
shows the draft `d`, it hands out `a`, and then the reader is `q` and the parser shows `e`. A fault
is only possible where some node of `e` starts past the last position, and then it says that a
marker is misplaced. The rules below say this of every word of the grammar's vocabulary; everything
larger is put together from them.
-/

namespace Verbatim

/-- Whether the cause is a marker that does not point where it should. -/
def Fault.isMisplaced : Fault → Bool
  | .brokenMarker | .positionUnderflow => true
  | _ => false

/-- The parser with other events. -/
def Parser.rewritten (x : Parser) (events : List Event) : Parser :=
  { x with events := events.toArray }

/-- A parser with the events of a draft shows the draft, if they fit. -/
theorem Parser.shows_rewritten {d : Draft} (h : Event.Fits d.events) (x : Parser) :
    (x.rewritten d.events).Shows d :=
  ⟨rfl, fun _ => rfl, fun _ hnot => absurd h hnot⟩

namespace Grammar

/-- A position that fits is kept by the cast to 32 bits. -/
theorem toNat_toUInt32_of_lt {n : Nat} (h : n < UInt32.size) : n.toUInt32.toNat = n := by
  rw [Nat.toUInt32_eq, UInt32.toNat_ofNat', Nat.mod_eq_of_lt h]

/-- A piece that succeeds hands on to what follows it. -/
theorem bind_eq_of_ok {α β : Type} {g : Grammar α} {k : α → Grammar β} {x y : Parser} {a : α}
    (h : g x = .ok (a, y)) : (g >>= k) x = k a y := by
  change (g x >>= fun r => k r.1 r.2) = k a y
  rw [h]
  rfl

/-- A piece that fails keeps what follows it from running. -/
theorem bind_eq_of_error {α β : Type} {g : Grammar α} {k : α → Grammar β} {x : Parser}
    {fault : Fault} (h : g x = .error fault) : (g >>= k) x = .error fault := by
  change (g x >>= fun r => k r.1 r.2) = .error fault
  rw [h]
  rfl

/-- A run of two pieces is a run of the first and then of the second. -/
theorem exists_of_bind_eq_ok {α β : Type} {g : Grammar α} {k : α → Grammar β} {x z : Parser} {b : β}
    (h : (g >>= k) x = .ok (b, z)) : ∃ a y, g x = .ok (a, y) ∧ k a y = .ok (b, z) := by
  cases hg : g x with
  | error fault =>
    rw [bind_eq_of_error hg] at h
    cases h
  | ok r =>
    rw [bind_eq_of_ok (a := r.1) (y := r.2) hg] at h
    exact ⟨r.1, r.2, rfl, h⟩

/-- Insisting on a kind changes nothing. -/
theorem eq_of_insist_eq_ok {kind : Kind} {x y : Parser} {u : Unit}
    (h : insist kind x = .ok (u, y)) : y = x := by
  obtain ⟨found, z, hpeek, hcheck⟩ := exists_of_bind_eq_ok h
  cases hpeek
  split at hcheck
  · cases hcheck
    rfl
  · cases hcheck

theorem change_eq_of_ok {step : Parser → Except Fault Parser} {x y : Parser}
    (h : step x = .ok y) : change step x = .ok ((), y) := by
  rw [change, h]
  rfl

theorem change_eq_of_error {step : Parser → Except Fault Parser} {x : Parser} {fault : Fault}
    (h : step x = .error fault) : change step x = .error fault := by
  rw [change, h]
  rfl

/-- What a piece of the grammar does to the reader and to the draft. -/
structure Runs {α : Type} (g : Grammar α) (p : Reader) (d : Draft) (a : α) (q : Reader)
    (e : Draft) : Prop where
  fits : Event.Fits e.events → Event.Fits d.events
  run : ∀ x : Parser, x.reader = p → x.Shows d →
    (∃ y, g x = .ok (a, y) ∧ y.reader = q ∧ y.eof = x.eof ∧ y.Shows e) ∨
      (∃ fault, g x = .error fault ∧ fault.isMisplaced = true) ∧ ¬ Event.Fits e.events

namespace Runs

variable {α β : Type} {p q r : Reader} {d e f : Draft} {a : α} {b : β}

/-- To do nothing is a run. -/
protected theorem pure (a : α) : Runs (pure a) p d a p d where
  fits h := h
  run x hp hd := .inl ⟨x, rfl, hp, rfl, hd⟩

/-- Pieces run one after the other. -/
protected theorem bind {g : Grammar α} {k : α → Grammar β} (hg : Runs g p d a q e)
    (hk : Runs (k a) q e b r f) : Runs (g >>= k) p d b r f where
  fits h := hg.fits (hk.fits h)
  run x hp hd := by
    rcases hg.run x hp hd with ⟨y, hy, hq, heof, he⟩ | ⟨⟨fault, hfault, hmisplaced⟩, hnot⟩
    · rw [bind_eq_of_ok hy, ← heof]
      exact hk.run y hq he
    · exact .inr ⟨⟨fault, bind_eq_of_error hfault, hmisplaced⟩, fun h => hnot (hk.fits h)⟩

/-- A piece whose answer is not wanted. -/
protected theorem discard {g : Grammar α} (hg : Runs g p d a q e) :
    Runs (discard g) p d () q e := by
  have hrun : discard g = g >>= fun _ => pure () := by
    funext x
    change (g x >>= fun r => Except.ok ((), r.2)) = (g x >>= fun r => Except.ok ((), r.2))
    rfl
  rw [hrun]
  exact hg.bind (.pure ())

/-- A run of the first branch is a run of the choice if the condition holds. -/
theorem ite_pos {c : Prop} [Decidable c] {g k : Grammar α} (h : c) (hg : Runs g p d a q e) :
    Runs (if c then g else k) p d a q e := by
  rwa [if_pos h]

/-- A run of the second branch is a run of the choice if the condition fails. -/
theorem ite_neg {c : Prop} [Decidable c] {g k : Grammar α} (h : ¬ c) (hk : Runs k p d a q e) :
    Runs (if c then g else k) p d a q e := by
  rwa [if_neg h]

/-- A piece that does not write anything down. -/
theorem move {g : Grammar α}
    (h : ∀ x : Parser, x.reader = p →
      ∃ y, g x = .ok (a, y) ∧ y.reader = q ∧ y.eof = x.eof ∧ y.events = x.events) :
    Runs g p d a q d where
  fits h := h
  run x hp hd := by
    obtain ⟨y, hy, hq, heof, hev⟩ := h x hp
    exact .inl ⟨y, hy, hq, heof, ⟨hev ▸ hd.bare, hev ▸ hd.exact, hev ▸ hd.spoiled⟩⟩

end Runs

section Vocabulary

variable {p : Reader} {d : Draft}

/-- Looking at the next kind changes neither the reader nor the draft. -/
theorem runs_peek : Runs peek p d p.next p d :=
  .move fun x hp => ⟨x, by subst hp; rfl, hp, rfl, rfl⟩

theorem runs_at (kind : Kind) : Runs (at? kind) p d (p.next == kind) p d :=
  runs_peek.bind (.pure _)

theorem runs_atAny (kinds : KindSet) : Runs (atAny kinds) p d (kinds.contains p.next) p d :=
  runs_peek.bind (.pure _)

theorem runs_nestingExhausted : Runs nestingExhausted p d p.nesting.exhausted p d :=
  .move fun x hp => ⟨x, by subst hp; rfl, hp, rfl, rfl⟩

theorem runs_insist : Runs (insist p.next) p d () p d := by
  exact runs_peek.bind (.ite_pos rfl (.pure ()))

/-- Going one level down changes the nesting alone. -/
theorem runs_enterNesting : Runs enterNesting p d p.enter.1 p.enter.2 d :=
  .move fun x hp => ⟨{ x with nesting := x.nesting.enter.2 }, by subst hp; rfl, by subst hp; rfl,
    rfl, rfl⟩

/-- Coming back up changes the nesting alone. -/
theorem runs_leaveNesting {levels : Nat} (h : levels ≤ p.nesting.depth) :
    Runs (leaveNesting levels) p d () (p.leave levels) d := by
  refine .move fun x hp => ?_
  subst hp
  refine ⟨{ x with nesting := { x.nesting with depth := x.nesting.depth - levels } }, ?_, rfl, rfl,
    rfl⟩
  change (if levels ≤ x.nesting.depth then _ else _ : Grammar Unit) x = _
  rw [if_pos (show levels ≤ x.nesting.depth from h)]
  rfl

/-- The next token is read into the next slot. -/
theorem runs_advance {t : Token} {rest : List Token} {n : Nesting} :
    Runs advance ⟨t :: rest, n⟩ d () ⟨rest, n⟩ (d.fill (.token t)) where
  fits h := Draft.fits_of_fill h
  run x hp hd := by
    obtain ⟨hrest, hn⟩ := Reader.mk.injEq .. ▸ hp
    refine .inl ⟨{ x.emit (.token t) with rest }, ?_, ?_, rfl, ?_⟩
    · change Except.ok ((), x.consume) = _
      simp [Parser.consume, hrest, Parser.emit]
    · simp [Parser.reader, Parser.emit, hn]
    · have hfill := hd.fill_token t
      exact ⟨hfill.bare, hfill.exact, hfill.spoiled⟩

/-- Writing a slot down that opens no node. -/
private theorem runs_emit {s : Sketch} {e : Event} (hs : s.events none = [e])
    (he : e.bare ≠ .unnamed) : Runs (modify (·.emit e)) p d () p (d.fill s) where
  fits h := Draft.fits_of_fill h
  run x hp hd := .inl ⟨x.emit e, rfl, hp, rfl, hd.fill hs he⟩

theorem runs_absent : Runs absent p d () p (d.fill .absent) :=
  runs_emit rfl (by simp [Event.bare, Event.unnamed])

/-- A placeholder is put into the next slot, and can be given a parent. -/
theorem runs_missing (kind : Kind) :
    Runs (missing kind) p d (d.mark (.missing kind)) p (d.fill (.missing kind)) where
  fits h := Draft.fits_of_fill h
  run x hp hd := by
    refine .inl ⟨x.emit (.missing kind none), ?_, hp, rfl,
      hd.fill rfl (by simp [Event.bare, Event.unnamed])⟩
    change Except.ok (Completed.mk x.position, _) = _
    rw [Parser.position, hd.size_eq]
    rfl

theorem start_eq (x : Parser) : start x = .ok (⟨x.position⟩, x.emit .unnamed) :=
  rfl

/-- A node is opened, and its marker is the number of events before it. -/
theorem runs_start : Runs start p d ⟨d.size.toUInt32⟩ p d.start where
  fits h := by
    rw [Draft.events_start] at h
    exact Event.fits_of_append h
  run x hp hd := by
    refine .inl ⟨x.emit .unnamed, ?_, hp, rfl, hd.start⟩
    rw [start_eq, Parser.position, hd.size_eq]

/-- Changing an event at a position that fits keeps a list loosely right, if the event stays of its
sort. -/
private theorem bare_set {events : List Event} {i : Nat} {old new : Event}
    (hold : events[i]? = some old) (h : new.bare = old.bare) :
    (events.set i new).map Event.bare = events.map Event.bare := by
  obtain ⟨hlt, hget⟩ := List.getElem?_eq_some_iff.mp hold
  have hmap : i < (events.map Event.bare).length := by simpa using hlt
  rw [List.map_set, h, ← hget, ← List.getElem_map Event.bare (h := hmap), List.set_getElem_self]

/-- Naming a start either fails or changes that event only. -/
private theorem nameStart_cases (position : UInt32) (kind : Kind) (x : Parser) :
    nameStart position kind x = .error .brokenMarker ∨
      ∃ old new, x.events.toList[position.toNat]? = some old ∧ new.bare = old.bare ∧
        nameStart position kind x =
          .ok { x with events := x.events.setIfInBounds position.toNat new } := by
  unfold nameStart
  rw [← Array.getElem?_toList]
  split
  · next old forward h => exact .inr ⟨_, .start kind forward, h, rfl, rfl⟩
  · exact .inl rfl

/-- Closing a node whose start has a position that fits names this start and writes the end down. -/
theorem complete_eq {x : Parser} {kind : Kind} {before after : List Event}
    (h : x.events.toList = before ++ .unnamed :: after) (hlt : before.length < UInt32.size) :
    complete ⟨before.length.toUInt32⟩ kind x = .ok (⟨before.length.toUInt32⟩,
      x.rewritten (before ++ .start kind none :: (after ++ [.finish]))) := by
  have hget : x.events[before.length.toUInt32.toNat]? = some .unnamed := by
    rw [toNat_toUInt32_of_lt hlt, ← Array.getElem?_toList, h]
    simp
  have hname : nameStart before.length.toUInt32 kind x =
      .ok (x.rewritten (before ++ .start kind none :: after)) := by
    have hset : x.events.setIfInBounds before.length (.start kind none) =
        (before ++ .start kind none :: after).toArray := Array.ext' (by simp [h])
    rw [nameStart, hget, toNat_toUInt32_of_lt hlt, Parser.rewritten, ← hset]
    rfl
  refine (bind_eq_of_ok (change_eq_of_ok hname)).trans ?_
  change Except.ok (_, Parser.emit _ .finish) = _
  simp [Parser.emit, Parser.rewritten]

/-- Closing a node names its start and writes its end down. -/
private theorem runs_complete_of {e : Draft} {kind : Kind} {before after : List Event}
    (hd : d.events = before ++ .unnamed :: after)
    (he : e.events = before ++ .start kind none :: (after ++ [.finish])) (hbase : e.base = d.base) :
    Runs (complete ⟨before.length.toUInt32⟩ kind) p d ⟨before.length.toUInt32⟩ p e := by
  have hbare : e.events.map Event.bare = (d.events ++ [Event.finish]).map Event.bare := by
    simp [hd, he, Event.bare, Event.unnamed]
  have hfits : Event.Fits e.events ↔ Event.Fits d.events := by
    rw [hd, he]
    exact Event.fits_named_iff
  refine ⟨hfits.mp, fun x hp hx => ?_⟩
  by_cases hf : Event.Fits e.events
  · -- every position is exact, so the marker points at the start of this node
    have hlt : before.length < UInt32.size := (hd ▸ hfits.mp hf).length_lt
    refine .inl ⟨x.rewritten e.events, ?_, hp, rfl, x.shows_rewritten hf⟩
    rw [he]
    exact complete_eq (hd ▸ hx.exact (hfits.mp hf)) hlt
  · obtain ⟨position, hpos⟩ : ∃ position, position = before.length.toUInt32 := ⟨_, rfl⟩
    rw [← hpos]
    rcases nameStart_cases position kind x with hfault | ⟨old, new, hold, hnew, hname⟩
    · exact .inr ⟨⟨_, bind_eq_of_error (change_eq_of_error hfault), rfl⟩, hf⟩
    · refine .inl ⟨_, bind_eq_of_ok (change_eq_of_ok hname), hp, rfl, ?_, fun h => absurd h hf,
        fun hfirst _ => ?_⟩
      · rw [hbare]
        simp only [Parser.emit, Array.toList_push, Array.toList_setIfInBounds, List.map_append]
        rw [bare_set hold hnew, hx.bare]
      · simp only [Parser.emit, Array.toList_push, Array.toList_setIfInBounds]
        exact ((hx.spoiled (hbase ▸ hfirst) (mt hfits.mpr hf)).set position.toNat_lt new).append _

/-- Closing a node that was opened plainly. -/
theorem runs_complete {slots : List Sketch} {kind : Kind} :
    Runs (complete ⟨d.size.toUInt32⟩ kind) p (d.start.fills slots)
      (d.mark (.node kind false slots)) p (d.fill (.node kind false slots)) :=
  @runs_complete_of p (d.start.fills slots) (d.fill (.node kind false slots)) kind d.events
    (Sketch.eventsOf slots) (by simp) (by simp [Sketch.events]) rfl

/-- Closing a node that was opened around an element. -/
theorem runs_complete_around {first : Sketch} {slots : List Sketch} {kind : Kind} :
    Runs (complete ⟨(d.size + first.eventCount).toUInt32⟩ kind) p
      ((d.startAround first).fills slots) (d.mark (.node kind true (first :: slots))) p
      (d.fill (.node kind true (first :: slots))) := by
  have h := @runs_complete_of p ((d.startAround first).fills slots)
    (d.fill (.node kind true (first :: slots))) kind
    (d.events ++ first.events (some first.parentDistance)) (Sketch.eventsOf slots)
    (by simp) (by simp [Sketch.events]) rfl
  simpa [Draft.mark, Sketch.marker, Draft.size] using h

/-- Linking an element to a parent either fails or changes that event only. -/
private theorem linkParent_cases (position distance : UInt32) (x : Parser) :
    linkParent position distance x = .error .brokenMarker ∨
      ∃ old new, x.events.toList[position.toNat]? = some old ∧ new.bare = old.bare ∧
        linkParent position distance x =
          .ok { x with events := x.events.setIfInBounds position.toNat new } := by
  unfold linkParent
  rw [← Array.getElem?_toList]
  split
  · next kind old h => exact .inr ⟨_, .start kind (some distance), h, rfl, rfl⟩
  · next kind old h => exact .inr ⟨_, .missing kind (some distance), h, rfl, rfl⟩
  · exact .inl rfl

/-- Linking the event that stands for an element gives the same event with the link. -/
private theorem linkParent_eq {position distance : UInt32} {x : Parser}
    {head : Option UInt32 → Event} (hget : x.events.toList[position.toNat]? = some (head none))
    (hhead : (∃ kind, head = Event.start kind) ∨ ∃ kind, head = Event.missing kind) :
    linkParent position distance x =
      .ok { x with events := x.events.setIfInBounds position.toNat (head (some distance)) } := by
  rw [linkParent, ← Array.getElem?_toList, hget]
  rcases hhead with ⟨kind, rfl⟩ | ⟨kind, rfl⟩ <;> rfl

/-- A link to a parent changes no event but the one that is told. -/
private theorem bare_events_eq {s : Sketch} (h : s.isElement) (forward : Option UInt32) :
    (s.events forward).map Event.bare = (s.events none).map Event.bare := by
  obtain ⟨before, after, head, hsplit, -, hhead⟩ := s.events_split h
  rw [hsplit, hsplit]
  rcases hhead with ⟨kind, rfl⟩ | ⟨kind, rfl⟩ <;> simp [Event.bare]

/-- Opening a node around an element writes its start down and links the element to it. -/
private theorem precede_run (child : UInt32) (x : Parser) :
    precede ⟨child⟩ x =
      if child ≤ x.position then
        (linkParent child (x.position - child) (x.emit .unnamed)).map fun y => (⟨x.position⟩, y)
      else .error .positionUnderflow := by
  refine (bind_eq_of_ok (start_eq x)).trans ?_
  by_cases hle : child ≤ x.position
  · simp only [if_pos hle]
    cases hlink : linkParent child (x.position - child) (x.emit .unnamed) with
    | error fault => exact bind_eq_of_error (change_eq_of_error hlink)
    | ok y => exact bind_eq_of_ok (change_eq_of_ok hlink)
  · simp only [if_neg hle]
    rfl

/-- Opening a node around an element links the element to the node, if the node starts at a position
that fits. -/
theorem precede_eq {x : Parser} {before after : List Event} {head : Option UInt32 → Event}
    (h : x.events.toList = before ++ head none :: after)
    (hhead : (∃ kind, head = Event.start kind) ∨ ∃ kind, head = Event.missing kind)
    (hlt : x.events.size < UInt32.size) :
    precede ⟨before.length.toUInt32⟩ x = .ok (⟨x.events.size.toUInt32⟩,
      x.rewritten (before ++ head (some (x.events.size - before.length).toUInt32) ::
        (after ++ [.unnamed]))) := by
  have hsize : x.events.size = before.length + after.length + 1 := by
    simpa [Nat.add_assoc] using congrArg List.length h
  obtain ⟨child, hchild⟩ : ∃ child, child = before.length.toUInt32 := ⟨_, rfl⟩
  obtain ⟨parent, hparent⟩ : ∃ parent, parent = x.events.size.toUInt32 := ⟨_, rfl⟩
  have hcn : child.toNat = before.length := by
    rw [hchild, toNat_toUInt32_of_lt (by omega)]
  have hpn : parent.toNat = x.events.size := by
    rw [hparent, toNat_toUInt32_of_lt hlt]
  have hle : child ≤ parent := by
    rw [UInt32.le_iff_toNat_le]
    omega
  have hdist : parent - child = (x.events.size - before.length).toUInt32 := by
    rw [← UInt32.toNat_inj, UInt32.toNat_sub_of_le _ _ hle, hpn, hcn,
      toNat_toUInt32_of_lt (by omega)]
  have hget : (x.emit .unnamed).events.toList[child.toNat]? = some (head none) := by
    simp [Parser.emit, h, hcn]
  have hset : (x.emit .unnamed).events.setIfInBounds child.toNat (head (some (parent - child))) =
      (before ++ head (some (parent - child)) :: (after ++ [.unnamed])).toArray :=
    Array.ext' (by simp [Parser.emit, h, hcn])
  rw [← hchild, ← hparent, ← hdist, precede_run, Parser.position, ← hparent, if_pos hle,
    linkParent_eq hget hhead, hset]
  rfl

/-- Opening a node around the element that was completed last. -/
theorem runs_precede {first : Sketch} (h : first.isElement) :
    Runs (precede (d.mark first)) p (d.fill first) ⟨(d.size + first.eventCount).toUInt32⟩ p
      (d.startAround first) := by
  have hbare : (d.startAround first).events.map Event.bare =
      ((d.fill first).events ++ [Event.unnamed]).map Event.bare := by
    simp [bare_events_eq h]
  have hfits : Event.Fits (d.startAround first).events ↔
      Event.Fits (d.fill first).events ∧ (d.fill first).size < UInt32.size :=
    (Event.fits_congr hbare).trans Event.fits_append_start_iff
  have hsize : (d.fill first).size = d.size + first.eventCount := by simp [Draft.size]
  refine ⟨fun hf => (hfits.mp hf).1, fun x hp hx => ?_⟩
  rw [← hsize]
  by_cases hf : Event.Fits (d.startAround first).events
  · -- every position is exact: the marker points at the event of the element
    obtain ⟨before, after, head, hsplit, hlen, hhead⟩ := first.events_split h
    obtain ⟨hfill, hlt⟩ := hfits.mp hf
    have hev : x.events.toList = (d.events ++ before) ++ head none :: after := by
      simp [hx.exact hfill, hsplit]
    have hmark : d.mark first = ⟨(d.events ++ before).length.toUInt32⟩ := by
      simp [Draft.mark, Draft.size, hlen]
    have hdist : (x.events.size - (d.events ++ before).length).toUInt32 = first.parentDistance := by
      rw [hx.size_eq, hsize, List.length_append, hlen, Draft.size, Nat.add_sub_add_left,
        Sketch.parentDistance]
    have hrun := precede_eq hev hhead (hx.size_eq ▸ hlt)
    refine .inl ⟨x.rewritten (d.startAround first).events, ?_, hp, rfl, x.shows_rewritten hf⟩
    rw [hmark, hrun, hdist, hx.size_eq]
    simp [hsplit]
  · -- a position has wrapped: linking fails, or the draft is spoiled and stays so
    have hx' := hx.start
    obtain ⟨child, hchild⟩ : ∃ child, child = (d.mark first).position := ⟨_, rfl⟩
    have hpos : x.position = (d.fill first).size.toUInt32 := by rw [Parser.position, hx.size_eq]
    rw [← hpos, show d.mark first = ⟨child⟩ by rw [hchild], precede_run]
    by_cases hle : child ≤ x.position
    · rw [if_pos hle]
      rcases linkParent_cases child (x.position - child) (x.emit .unnamed) with
        hfault | ⟨old, new, hold, hnew, hlink⟩
      · rw [hfault]
        exact .inr ⟨⟨.brokenMarker, rfl, rfl⟩, hf⟩
      · rw [hlink]
        refine .inl ⟨_, rfl, hp, rfl, ?_, fun h => absurd h hf, fun hfirst _ => ?_⟩
        · rw [hbare, Array.toList_setIfInBounds, bare_set hold hnew]
          simpa using hx'.bare
        · rw [Array.toList_setIfInBounds]
          refine (hx'.spoiled hfirst fun hs => hf ?_).set child.toNat_lt new
          rwa [Event.fits_congr hbare, ← Draft.events_start]
    · rw [if_neg hle]
      exact .inr ⟨⟨.positionUnderflow, rfl, rfl⟩, hf⟩

end Vocabulary

end Grammar

end Verbatim
