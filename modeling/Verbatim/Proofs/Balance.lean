import Verbatim.Proofs.Alloc
import Verbatim.Proofs.Resolution

/-!
# Starts and finishes

Where a start was never named there are more finishes than named starts, and then no tree can be
built: every step that opens a node comes from a named start, every step that closes one from a
finish, and a builder ends with nothing open only if it took as many of the one as of the other. So
whenever a tree comes out, the positions of all its events were exact.
-/

namespace Verbatim

/-- Whether the step opens a node. -/
@[simp] def BuildStep.isStart : BuildStep → Bool
  | .start _ => true
  | _ => false

/-- Whether the step closes a node. -/
@[simp] def BuildStep.isFinish : BuildStep → Bool
  | .finish => true
  | _ => false

namespace Event

/-- Whether the event opens a node. -/
@[simp] def isStart : Event → Bool
  | .start .. => true
  | _ => false

/-- Whether the event closes a node. -/
@[simp] def isFinish : Event → Bool
  | .finish => true
  | _ => false

/-- Whether the event opens a node that was named. -/
def isNamed : Event → Bool
  | .start kind _ => kind != .tombstone
  | _ => false

/-- Number of named starts, counted from position `here` on, that are not open yet. -/
def pending (opened : List Nat) : Nat → List Event → Nat
  | _, [] => 0
  | here, e :: rest =>
    (if e.isNamed = true ∧ here ∉ opened then 1 else 0) + pending opened (here + 1) rest

theorem pending_append (opened : List Nat) (here : Nat) (a b : List Event) :
    pending opened here (a ++ b) = pending opened here a + pending opened (here + a.length) b := by
  induction a generalizing here with
  | nil => simp [pending]
  | cons e a ih =>
    simp only [List.cons_append, pending, List.length_cons, ih]
    rw [← Nat.add_assoc, show here + 1 + a.length = here + (a.length + 1) by omega]

/-- Opening more positions leaves fewer starts. -/
theorem pending_mono {opened more : List Nat} {here : Nat} {events : List Event}
    (h : ∀ i, here ≤ i → i ∈ opened → i ∈ more) :
    pending more here events ≤ pending opened here events := by
  induction events generalizing here with
  | nil => exact Nat.le_refl _
  | cons e events ih =>
    refine Nat.add_le_add ?_ (ih fun i hi => h i (by omega))
    split
    · next hnew =>
      exact Nat.le_of_eq (if_pos ⟨hnew.1, fun hmem => hnew.2 (h here (Nat.le_refl _) hmem)⟩).symm
    · exact Nat.zero_le _

/-- Following links opens no more starts than there are. -/
theorem length_parents_le {here : Nat} {rest : List Event} {opened after : List Nat}
    {forward : Option UInt32} {kinds : List Kind}
    (h : parents here rest opened forward = .ok (kinds, after)) (hhere : here ∈ opened) :
    (∀ i ∈ opened, i ∈ after) ∧
      kinds.length + pending after (here + 1) rest ≤ pending opened (here + 1) rest := by
  fun_induction parents here rest opened forward generalizing kinds after with
  | case1 here rest opened =>
    cases h
    exact ⟨fun _ hi => hi, by simp⟩
  | case2 here rest opened distance hopen =>
    cases h
    exact ⟨fun _ hi => hi, by simp⟩
  | case3 here rest opened distance target hopen kind forward later hdrop =>
    rename_i _ ih
    cases hparents : parents target later (target :: opened) forward with
    | error fault =>
      rw [hparents] at h
      cases h
    | ok found =>
      obtain ⟨outer, opened'⟩ := found
      rw [hparents] at h
      cases h
      obtain ⟨hsub, hle⟩ := ih hparents List.mem_cons_self
      have hnew : target ∉ opened := by simpa using hopen
      have hsub' : ∀ i ∈ opened, i ∈ after := fun i hi => hsub i (List.mem_cons_of_mem _ hi)
      refine ⟨hsub', ?_⟩
      -- the list is cut at the target: nothing new is open before it, and it was not open
      have hpos : 0 < distance.toNat := Nat.pos_of_ne_zero fun h0 => hnew (by simpa [target, h0])
      have hcut : rest = rest.take (distance.toNat - 1) ++ .start kind forward :: later := by
        rw [← hdrop, List.take_append_drop]
      have hlen : (rest.take (distance.toNat - 1)).length = distance.toNat - 1 := by
        have := congrArg List.length hdrop
        simp only [List.length_drop, List.length_cons] at this
        rw [List.length_take]
        omega
      have hat : here + 1 + (rest.take (distance.toNat - 1)).length = target := by
        simp only [target]
        omega
      have hbefore := @pending_mono opened after (here + 1) (rest.take (distance.toNat - 1))
        fun i _ => hsub' i
      have hafter := @pending_mono opened (target :: opened) (target + 1) later
        fun i _ => List.mem_cons_of_mem _
      have hhere : pending after target (.start kind forward :: later) =
          pending after (target + 1) later := by
        rw [pending, if_neg fun h => h.2 (hsub target List.mem_cons_self), Nat.zero_add]
      rw [hcut, pending_append, pending_append, hat, hhere, pending]
      by_cases hkind : kind = .tombstone
      · rw [if_pos hkind]
        omega
      · rw [if_neg hkind, if_pos ⟨by simpa [isNamed] using hkind, hnew⟩, List.length_cons]
        omega
  | case4 => cases h

/-- Positions that were passed do not matter. -/
theorem pending_erase_le (opened : List Nat) (here : Nat) (events : List Event) :
    pending (opened.erase here) (here + 1) events ≤ pending opened (here + 1) events :=
  pending_mono fun i hi hmem => (List.mem_erase_of_ne (by omega)).mpr hmem

/-- The parents of an element, its own start included, are named starts that were not open. -/
theorem length_parents_self_le {here : Nat} {rest : List Event} {opened after : List Nat}
    {forward : Option UInt32} {kinds : List Kind}
    (h : parents here rest (here :: opened) forward = .ok (kinds, after)) :
    kinds.length + pending (after.erase here) (here + 1) rest ≤ pending opened (here + 1) rest := by
  have hparents := (length_parents_le h List.mem_cons_self).2
  have hafter := pending_erase_le after here rest
  have hopened := @pending_mono opened (here :: opened) (here + 1) rest
    fun i _ => List.mem_cons_of_mem _
  omega

/-- A token that is consumed fills a slot. -/
theorem exists_of_tokenStep_eq_ok {text : String} {t : Token} {step : BuildStep}
    (h : tokenStep text t = .ok step) :
    ∃ full, step = .token t.kind full t.leadingPieces t.trailingPieces := by
  unfold tokenStep at h
  split at h
  · cases h
  · cases hcut : t.fullSpan.cut text <;> rw [hcut] at h <;> cases h
    exact ⟨_, rfl⟩

/-- Every step that opens a node comes from a named start, and every step that closes one from a
finish. -/
theorem countP_resolveFrom {text : String} {here : Nat} {opened : List Nat}
    {steps out : Array BuildStep} {events : List Event}
    (h : resolveFrom text here opened steps events = .ok out) :
    out.toList.countP BuildStep.isStart ≤
        steps.toList.countP BuildStep.isStart + pending opened here events ∧
      out.toList.countP BuildStep.isFinish =
        steps.toList.countP BuildStep.isFinish + events.countP isFinish := by
  fun_induction resolveFrom text here opened steps events with
  | case1 here opened steps =>
    cases h
    exact ⟨Nat.le_add_right _ _, rfl⟩
  | case2 here opened steps kind forward rest hopen ih =>
    obtain ⟨hstarts, hfinishes⟩ := ih h
    have := pending_erase_le opened here rest
    exact ⟨by simp only [pending]; omega, by simpa [isFinish] using hfinishes⟩
  | case3 here opened steps forward rest hopen ih =>
    obtain ⟨hstarts, hfinishes⟩ := ih h
    exact ⟨by simpa [pending, isNamed] using hstarts, by simpa [isFinish] using hfinishes⟩
  | case4 here opened steps kind forward rest hopen hkind ih =>
    cases hparents : parents here rest (here :: opened) forward with
    | error fault =>
      rw [hparents] at h
      cases h
    | ok found =>
      obtain ⟨kinds, after⟩ := found
      rw [hparents] at h
      obtain ⟨hstarts, hfinishes⟩ := ih kinds after h
      have hle := length_parents_self_le hparents
      rw [pending, if_pos ⟨by simpa [isNamed] using hkind, by simpa using hopen⟩]
      simp [List.countP_cons, Function.comp_def] at hstarts hfinishes ⊢
      omega
  | case5 here opened steps kind forward rest ih =>
    cases hparents : parents here rest (here :: opened) forward with
    | error fault =>
      rw [hparents] at h
      cases h
    | ok found =>
      obtain ⟨kinds, after⟩ := found
      rw [hparents] at h
      obtain ⟨hstarts, hfinishes⟩ := ih kinds after h
      have hle := length_parents_self_le hparents
      simp [Function.comp_def, pending, isNamed] at hstarts hfinishes ⊢
      omega
  | case6 here opened steps t rest ih =>
    cases hstep : tokenStep text t with
    | error fault =>
      rw [hstep] at h
      cases h
    | ok step =>
      rw [hstep] at h
      obtain ⟨full, rfl⟩ := exists_of_tokenStep_eq_ok hstep
      obtain ⟨hstarts, hfinishes⟩ := ih _ h
      simp [pending, isNamed] at hstarts hfinishes ⊢
      omega
  | case7 here opened steps rest ih | case8 here opened steps rest ih =>
    obtain ⟨hstarts, hfinishes⟩ := ih h
    simp [List.countP_cons, pending, isNamed] at hstarts hfinishes ⊢
    omega

theorem pending_nil (here : Nat) (events : List Event) :
    pending [] here events = events.countP isNamed := by
  induction events generalizing here with
  | nil => rfl
  | cons e events ih => simp [pending, ih, List.countP_cons, Nat.add_comm]

/-- The steps that a list of events describes open no more nodes than it names, and close exactly
those it finishes. -/
theorem countP_resolve {text : String} {events : List Event} {steps : List BuildStep}
    (h : resolve text events = .ok steps) :
    steps.countP BuildStep.isStart ≤ events.countP isNamed ∧
      steps.countP BuildStep.isFinish = events.countP isFinish := by
  cases hout : resolveFrom text 0 [] #[] events with
  | error fault =>
    rw [resolve, hout] at h
    cases h
  | ok out =>
    rw [resolve, hout] at h
    cases h
    simpa [pending_nil] using countP_resolveFrom hout

theorem isStart_bare (e : Event) : e.bare.isStart = e.isStart := by cases e <;> rfl

theorem isFinish_bare (e : Event) : e.bare.isFinish = e.isFinish := by cases e <;> rfl

/-- What does not depend on names and links is counted the same in bare events. -/
theorem countP_eq_of_map_bare {p : Event → Bool} (hp : ∀ e : Event, p e.bare = p e)
    {a b : List Event} (h : a.map bare = b.map bare) : a.countP p = b.countP p := by
  have hcomp : p ∘ bare = p := funext hp
  have hcount := congrArg (List.countP p) h
  rwa [List.countP_map, List.countP_map, hcomp] at hcount

theorem isStart_of_isNamed {e : Event} (h : e.isNamed = true) : e.isStart = true := by
  cases e with
  | start => rfl
  | _ => cases h

/-- A start that was never named is missing from the count. -/
theorem Spoiled.countP_lt {events : List Event} (h : Spoiled events) :
    events.countP isNamed < events.countP isStart := by
  obtain ⟨i, -, hi⟩ := h
  obtain ⟨a, b, rfl⟩ := List.append_of_mem (List.mem_of_getElem? hi)
  have ha := List.countP_mono_left (l := a) fun e _ => @isStart_of_isNamed e
  have hb := List.countP_mono_left (l := b) fun e _ => @isStart_of_isNamed e
  simp only [List.countP_append, List.countP_cons, unnamed, isNamed, isStart, if_true,
    bne_self_eq_false, Bool.false_eq_true, if_false]
  omega

end Event

namespace Sketch

/-- A sketch opens as many nodes as it closes. -/
theorem countP_events (s : Sketch) (forward : Option UInt32) :
    (s.events forward).countP Event.isStart = (s.events forward).countP Event.isFinish := by
  have hall {slots : List Sketch} (h : ∀ s ∈ slots, ∀ forward,
      (s.events forward).countP Event.isStart = (s.events forward).countP Event.isFinish) :
      (eventsOf slots).countP Event.isStart = (eventsOf slots).countP Event.isFinish := by
    induction slots with
    | nil => rfl
    | cons s rest ih =>
      simp only [eventsOf, List.countP_append, h s List.mem_cons_self,
        ih fun t ht => h t (List.mem_cons_of_mem _ ht)]
  induction s using induct generalizing forward with
  | token t | missing k | absent => rfl
  | node k late slots ih =>
    have hslots := hall ih
    cases late with
    | false => simp [events, List.countP_cons, hslots]
    | true =>
      cases slots with
      | nil => rfl
      | cons first rest =>
        have hrest := hall fun s hs => ih s (List.mem_cons_of_mem _ hs)
        simp [events, List.countP_cons, hrest, ih first List.mem_cons_self]

end Sketch

namespace Builder

/-- A node with the right number of slots is made and closed. -/
theorem finishNode_of_arity {b : Builder} {kind : Kind} {before : List Slot}
    {opened : List (Kind × List Slot)} (h : b.opened = (kind, before) :: opened)
    (harity : ∀ specs, kind.layout = .fixed specs → b.filled.length = specs.length) :
    b.finishNode = (do
      let node ← Alloc.makeNode kind b.filled.reverse
      return ⟨opened, some node :: before⟩) := by
  unfold finishNode
  rw [h]
  cases hlayout : kind.layout with
  | token | collection members => simp [hlayout]
  | fixed specs => simp [hlayout, harity specs hlayout]

/-- A node with the wrong number of slots is not made. -/
theorem finishNode_of_not_arity {b : Builder} {kind : Kind} {before : List Slot}
    {opened : List (Kind × List Slot)} (h : b.opened = (kind, before) :: opened)
    {specs : List SlotSpec} (hlayout : kind.layout = .fixed specs)
    (harity : b.filled.length ≠ specs.length) (s : Store) :
    b.finishNode s = (.error (.slotCount kind b.filled.length specs.length), s) := by
  unfold finishNode
  rw [h]
  simp only [hlayout, harity, if_false]
  rfl

/-- A step that opens a node opens one, a step that closes a node closes one, and no other does
either. -/
theorem length_opened_step {b c : Builder} {step : BuildStep} {s t : Store}
    (h : b.step step s = (.ok c, t)) :
    c.opened.length + [step].countP BuildStep.isFinish =
      b.opened.length + [step].countP BuildStep.isStart := by
  cases step with
  | start kind =>
    obtain ⟨hstart, -⟩ := Alloc.of_ofExcept_eq_ok h
    unfold start at hstart
    split at hstart
    · cases hstart
      rfl
    · cases hstart
  | finish =>
    change b.finishNode s = (.ok c, t) at h
    cases hopened : b.opened with
    | nil =>
      unfold finishNode at h
      rw [hopened] at h
      cases h
    | cons top opened =>
      obtain ⟨kind, before⟩ := top
      by_cases harity : ∀ specs, kind.layout = .fixed specs → b.filled.length = specs.length
      · rw [finishNode_of_arity hopened harity] at h
        obtain ⟨node, u, -, hu⟩ := Alloc.exists_of_bind_eq_ok h
        cases hu
        rfl
      · obtain ⟨specs, hspecs⟩ := Classical.not_forall.mp harity
        obtain ⟨hlayout, harity⟩ := Classical.not_imp.mp hspecs
        rw [finishNode_of_not_arity hopened hlayout harity s] at h
        cases h
  | token =>
    obtain ⟨node, u, -, hu⟩ := Alloc.exists_of_bind_eq_ok h
    cases hu
    rfl
  | missing =>
    obtain ⟨node, u, -, hu⟩ := Alloc.exists_of_bind_eq_ok h
    cases hu
    rfl
  | absent =>
    cases h
    rfl

/-- A run of steps opens and closes as many nodes as its steps do. -/
theorem length_opened_foldlM {b c : Builder} {steps : List BuildStep} {s t : Store}
    (h : steps.foldlM step b s = (.ok c, t)) :
    c.opened.length + steps.countP BuildStep.isFinish =
      b.opened.length + steps.countP BuildStep.isStart := by
  induction steps generalizing b s with
  | nil =>
    cases h
    rfl
  | cons step steps ih =>
    rw [List.foldlM_cons] at h
    obtain ⟨d, u, hstep, hrest⟩ := Alloc.exists_of_bind_eq_ok h
    have hfirst := length_opened_step hstep
    have hlast := ih hrest
    simp only [List.countP_cons, List.countP_nil] at hfirst ⊢
    omega

/-- A tree comes only from steps that close every node they open. -/
theorem countP_of_run_eq_ok {steps : List BuildStep} {s t : Store} {g : Green}
    (h : run steps s = (.ok g, t)) :
    steps.countP BuildStep.isFinish = steps.countP BuildStep.isStart := by
  obtain ⟨b, u, hsteps, hroot⟩ := Alloc.exists_of_bind_eq_ok h
  have hlength := length_opened_foldlM hsteps
  obtain ⟨hroot, -⟩ := Alloc.of_ofExcept_eq_ok hroot
  unfold root at hroot
  split at hroot
  · next hopened =>
    rw [List.isEmpty_iff.mp hopened] at hlength
    simpa using hlength
  · cases hroot

end Builder

/-- If a tree comes out of the events of a parser, then all positions in them were exact. -/
theorem Parser.Shows.events_eq_of_run {text : String} {x : Parser} {s : Sketch}
    {steps : List BuildStep} {st st' : Store} {g : Green} (hx : x.Shows (Draft.fill {} s))
    (hsteps : Event.resolve text x.events.toList = .ok steps)
    (hrun : Builder.run steps st = (.ok g, st')) :
    Event.Fits (s.events none) ∧ x.events.toList = s.events none := by
  have hevents := Draft.events_fill_empty s
  have hbare := hx.bare
  rw [hevents] at hbare
  by_cases hfits : Event.Fits (s.events none)
  · exact ⟨hfits, hevents ▸ hx.exact (hevents ▸ hfits)⟩
  · exfalso
    have hbase : Event.Fits (Draft.fill {} s).base := Event.fits_of_length_le (Nat.zero_le _)
    have hspoiled := (hx.spoiled hbase (hevents ▸ hfits)).countP_lt
    obtain ⟨hstarts, hfinishes⟩ := Event.countP_resolve hsteps
    have hbalance := Builder.countP_of_run_eq_ok hrun
    have hs := s.countP_events none
    have hstart := Event.countP_eq_of_map_bare Event.isStart_bare hbare
    have hfinish := Event.countP_eq_of_map_bare Event.isFinish_bare hbare
    omega

end Verbatim
