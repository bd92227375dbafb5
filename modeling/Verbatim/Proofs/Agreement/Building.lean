import Verbatim.Proofs.Agreement

/-!
# Agreement in building

Builders that have built the same values take the same steps with the same outcome, and finish the
same tree, so that a text has the same tree in every store. Each element of the tree that is not to
be shared was made for it.
-/

namespace Verbatim

namespace Builder

open Alloc

variable {e e' : Site} {b b' : Builder}

theorem openedAfter_value (b : Builder) : b.value.openedAfter = b.openedAfter := by
  simp only [openedAfter, value, ← List.map_reverse, List.foldl_map, Green.values_eq,
    List.length_map]

theorem mem_elements {g : Green} : g ∈ b.elements ↔ some g ∈ b.slots := by simp [elements]

/-- Builders that match have filled the same slots since the same nodes were opened. -/
theorem cases_of_match (h : HandlesMatch (.builder 0 b) e (.builder 0 b') e') :
    MatchesAll b.filled e b'.filled e' ∧
      (b.opened = [] ∧ b'.opened = [] ∨
        ∃ kind before opened before' opened', b.opened = (kind, before) :: opened ∧
          b'.opened = (kind, before') :: opened' ∧
          HandlesMatch (.builder 0 ⟨opened, before⟩) e (.builder 0 ⟨opened', before'⟩) e') := by
  obtain ⟨hvalue, hleft, hright⟩ := h
  obtain ⟨opened, filled⟩ := b
  obtain ⟨opened', filled'⟩ := b'
  simp only [Handle.value, value, Handle.builder.injEq, true_and, mk.injEq] at hvalue
  obtain ⟨hopened, hfilled⟩ := hvalue
  refine ⟨⟨hfilled, fun g hg => hleft g (mem_elements.mpr (List.mem_append_left _ hg)),
    fun g hg => hright g (mem_elements.mpr (List.mem_append_left _ hg))⟩, ?_⟩
  rcases opened with _ | ⟨⟨kind, before⟩, opened⟩ <;>
    rcases opened' with _ | ⟨⟨kind', before'⟩, opened'⟩
  · exact .inl ⟨rfl, rfl⟩
  · cases hopened
  · cases hopened
  · simp only [List.map_cons, List.cons.injEq, Prod.mk.injEq] at hopened
    obtain ⟨⟨rfl, hbefore⟩, hopened⟩ := hopened
    refine .inr ⟨kind, before, opened, before', opened', rfl, rfl, ?_, fun g hg => ?_,
      fun g hg => ?_⟩
    · simp only [Handle.value, value, hbefore, hopened]
    · exact hleft g (mem_elements.mpr (List.mem_append_right _ (mem_elements.mp hg)))
    · exact hright g (mem_elements.mpr (List.mem_append_right _ (mem_elements.mp hg)))

/-- A builder after a step: everything in it was there before or is new, and what was put in last is
new. -/
structure Grown (e : Site) (b c : Builder) : Prop where
  new : ∀ g, g.InUse c.elements → g.InUse b.elements ∨ e.New g
  newest : ∀ g, c.filled.head? = some (some g) → e.New g

/-- Putting something into the next slot, all of which was there before or is new. -/
theorem grown_fill {slot : Slot} (hslot : ∀ g, slot = some g → e.New g)
    (hbelow : ∀ g, slot = some g → ∀ c, some c ∈ g.slots → c.InUse b.elements) :
    Grown e b (b.fill slot) where
  new g hg := by
    obtain ⟨root, hroot, hg⟩ := hg
    rcases List.mem_cons.mp (mem_elements.mp hroot) with hroot | hroot
    · cases hg with
      | refl => exact .inr (hslot g hroot.symm)
      | slot hc hg =>
        obtain ⟨top, htop, hc⟩ := hbelow root hroot.symm _ hc
        exact .inl ⟨top, htop, hg.trans hc⟩
    · exact .inl ⟨root, mem_elements.mpr hroot, hg⟩
  newest g hg := hslot g (Option.some.inj hg)

/-- Builders that match after a step of each, and have grown by it. -/
structure GrownTogether (e e' : Site) (b b' c : Builder) (f : Site) (c' : Builder) (f' : Site) :
    Prop where
  handles : HandlesMatch (.builder 0 c) f (.builder 0 c') f'
  left : Grown e b c
  right : Grown e' b' c'

/-- Filling the next slots of builders that match. -/
theorem matches_fill {slot slot' : Slot} (hb : HandlesMatch (.builder 0 b) e (.builder 0 b') e')
    (hslot : MatchesAll [slot] e [slot'] e') :
    HandlesMatch (.builder 0 (b.fill slot)) e (.builder 0 (b'.fill slot')) e' where
  value_eq := by
    have hvalue : b.value = b'.value := (Handle.builder.inj hb.value_eq).2
    have hslots := hslot.values_eq
    simp only [value, mk.injEq, Green.values_eq, List.map_cons, List.map_nil, List.cons.injEq,
      and_true] at hvalue hslots
    simp only [Handle.value, value, fill, Green.values_eq, List.map_cons, hvalue, hslots]
  left g hg := by
    rcases List.mem_cons.mp (mem_elements.mp hg) with hg | hg
    · exact hslot.left g (hg ▸ List.mem_cons_self)
    · exact hb.left g (mem_elements.mpr hg)
  right g hg := by
    rcases List.mem_cons.mp (mem_elements.mp hg) with hg | hg
    · exact hslot.right g (hg ▸ List.mem_cons_self)
    · exact hb.right g (mem_elements.mpr hg)

/-- Putting elements that were just made, with nothing in their slots, into the next slots. -/
theorem grownTogether_fill (hb : HandlesMatch (.builder 0 b) e (.builder 0 b') e') {f f' : Site}
    (hf : e.Evolves f) (hf' : e'.Evolves f') {g g' : Green} (hg : Twins e e' g f g' f')
    (hnil : g.children = []) (hnil' : g'.children = []) :
    GrownTogether e e' b b' (b.fill (some g)) f (b'.fill (some g')) f' := by
  have hbelow {x : Green} (hx : x.children = []) (b : Builder) :
      ∀ y, some x = some y → ∀ c, some c ∈ y.slots → c.InUse b.elements := by
    rintro y ⟨⟩ c hc
    exact absurd (hx ▸ Green.mem_children.mpr hc) List.not_mem_nil
  refine ⟨matches_fill (hb.mono hf hf') (.cons_some hg.toMatches .nil), ?_, ?_⟩
  · exact grown_fill (fun x hx => Option.some.inj hx ▸ hg.new_left) (hbelow hnil b)
  · exact grown_fill (fun x hx => Option.some.inj hx ▸ hg.new_right) (hbelow hnil' b')

theorem agree_start (hb : HandlesMatch (.builder 0 b) e (.builder 0 b') e') (kind : Kind) :
    Agree (ofExcept (b.start kind)) (ofExcept (b'.start kind)) e e' (GrownTogether e e' b b') := by
  have hmem (b : Builder) (g : Green) :
      g ∈ Builder.elements ⟨(kind, b.filled) :: b.opened, []⟩ ↔ g ∈ b.elements := by
    rw [mem_elements, mem_elements]
    rfl
  have hgrown (e : Site) (b : Builder) : Grown e b ⟨(kind, b.filled) :: b.opened, []⟩ := by
    refine ⟨fun g ⟨root, hroot, hg⟩ => .inl ⟨root, (hmem b root).mp hroot, hg⟩, fun g hg => ?_⟩
    cases hg
  unfold start
  split
  · refine .pure ⟨⟨?_, fun g hg => ?_, fun g hg => ?_⟩, hgrown e b, hgrown e' b'⟩
    · have hvalue : b.value = b'.value := (Handle.builder.inj hb.value_eq).2
      simp only [value, mk.injEq] at hvalue
      simp only [Handle.value, value, List.map_cons, hvalue]
    · exact hb.left g ((hmem b g).mp hg)
    · exact hb.right g ((hmem b' g).mp hg)
  · exact .throw _

/-- Putting a node around what was filled since it was opened. -/
theorem grown_finish {kind : Kind} {before : List Slot} {opened : List (Kind × List Slot)}
    {g : Green} (hopened : b.opened = (kind, before) :: opened) (hg : e.New g)
    (hslots : g.slots = b.filled.reverse) : Grown e b ⟨opened, some g :: before⟩ where
  new x := by
    rintro ⟨root, hroot, hx⟩
    rcases List.mem_cons.mp (mem_elements.mp hroot) with hroot | hroot
    · cases Option.some.inj hroot
      cases hx with
      | refl => exact .inr hg
      | slot hc hx =>
        rw [hslots, List.mem_reverse] at hc
        exact .inl ⟨_, mem_elements.mpr (List.mem_append_left _ hc), hx⟩
    · refine .inl ⟨root, mem_elements.mpr ?_, hx⟩
      rw [slots, hopened]
      exact List.mem_append_right _ hroot
  newest x hx := Option.some.inj (Option.some.inj hx) ▸ hg

theorem agree_finishNode (hb : HandlesMatch (.builder 0 b) e (.builder 0 b') e') :
    Agree b.finishNode b'.finishNode e e' (GrownTogether e e' b b') := by
  obtain ⟨hfilled, ⟨h, h'⟩ | ⟨kind, before, opened, before', opened', h, h', hrest⟩⟩ :=
    cases_of_match hb
  · unfold finishNode
    rw [h, h']
    exact .throw _
  · have hlength := Green.length_eq_of_values hfilled.values_eq
    have hnode : Agree (do
          let node ← makeNode kind b.filled.reverse
          return (⟨opened, some node :: before⟩ : Builder))
        (do
          let node ← makeNode kind b'.filled.reverse
          return (⟨opened', some node :: before'⟩ : Builder)) e e'
        (GrownTogether e e' b b') := by
      refine (agree_allocNode kind .present hfilled.reverse).bind
        fun g g' f f' hf hf' ⟨hg, hslots, hslots'⟩ => .pure ⟨?_, ?_, ?_⟩
      · exact matches_fill (hrest.mono hf hf') (.cons_some hg.toMatches .nil)
      · exact grown_finish h hg.new_left hslots
      · exact grown_finish h' hg.new_right hslots'
    unfold finishNode
    rw [h, h']
    dsimp only
    split
    · exact .guard (by rw [hlength]) (by rw [hlength]) hnode
    · exact hnode

theorem agree_step (hb : HandlesMatch (.builder 0 b) e (.builder 0 b') e') (s : BuildStep) :
    Agree (b.step s) (b'.step s) e e' (GrownTogether e e' b b') := by
  cases s with
  | start kind => exact agree_start hb kind
  | finish => exact agree_finishNode hb
  | token kind text leading trailing =>
    exact (agree_makeToken _).bind fun t t' f f' hf hf' ht =>
      .pure (grownTogether_fill hb hf hf' ht rfl rfl)
  | missing kind =>
    exact (agree_missing kind).bind fun g g' f f' hf hf' ⟨hg, hnil, hnil'⟩ =>
      .pure (grownTogether_fill hb hf hf' hg hnil hnil')
  | absent =>
    refine .pure ⟨matches_fill hb (.cons_none .nil), ?_, ?_⟩ <;>
      exact grown_fill (fun _ h => by cases h) fun _ h => by cases h

/-- Any number of steps: everything that is new to the builder is new. -/
theorem agree_steps (hb : HandlesMatch (.builder 0 b) e (.builder 0 b') e')
    (steps : List BuildStep) :
    Agree (steps.foldlM step b) (steps.foldlM step b') e e' fun c f c' f' =>
      HandlesMatch (.builder 0 c) f (.builder 0 c') f' ∧
        (∀ g, g.InUse c.elements → g.InUse b.elements ∨ e.New g) ∧
          ∀ g, g.InUse c'.elements → g.InUse b'.elements ∨ e'.New g := by
  induction steps generalizing e e' b b' with
  | nil => exact .pure ⟨hb, fun _ => .inl, fun _ => .inl⟩
  | cons s steps ih =>
    rw [List.foldlM_cons, List.foldlM_cons]
    refine (agree_step hb s).bind fun c c' f f' hf hf' hc => ?_
    refine (ih hc.handles).mono fun d h d' h' ⟨hd, hleft, hright⟩ =>
      ⟨hd, fun g hg => ?_, fun g hg => ?_⟩
    · rcases hleft g hg with hg | hg
      · exact hc.left.new g hg
      · exact .inr (hg.of_evolves hf)
    · rcases hright g hg with hg | hg
      · exact hc.right.new g hg
      · exact .inr (hg.of_evolves hf')

/-- The trees that builders which match have finished, if any. -/
theorem agree_root (hb : HandlesMatch (.builder 0 b) e (.builder 0 b') e') :
    Agree (ofExcept b.root) (ofExcept b'.root) e e' fun g f g' f' =>
      Matches g f g' f' ∧ g ∈ b.elements ∧ g' ∈ b'.elements := by
  obtain ⟨hfilled, hopened⟩ := cases_of_match hb
  have hafter : b.openedAfter = b'.openedAfter := by
    rw [← openedAfter_value b, (Handle.builder.inj hb.value_eq).2, openedAfter_value]
  have hempty : b.opened.isEmpty = b'.opened.isEmpty := by
    rcases hopened with ⟨h, h'⟩ | ⟨_, _, _, _, _, h, h', -⟩
    · rw [h, h']
    · rw [h, h', List.isEmpty_cons, List.isEmpty_cons]
  have hmem {b : Builder} {g : Green} (h : b.filled = [some g]) : g ∈ b.elements := by
    rw [mem_elements, slots, h]
    exact List.mem_cons_self
  unfold root
  rw [← hempty, ← hafter]
  split
  · rcases hfilled.eq_nil_or_exists_cons with ⟨h, h'⟩ | ⟨s, rest, s', rest', h, h', hs, hrest⟩
    · rw [h, h']
      exact .throw _
    · rcases hrest.eq_nil_or_exists_cons with ⟨rfl, rfl⟩ | ⟨_, more, _, more', rfl, rfl, -, hmore⟩
      · rw [h, h']
        rcases hs.singleton_cases with ⟨rfl, rfl⟩ | ⟨g, g', rfl, rfl, hg⟩
        · exact .throw _
        · have hvalue := hg.value_eq
          cases g with
          | token t =>
            cases g' with
            | token t' => exact .throw _
            | node head' slots' => cases hvalue
          | node head slots =>
            cases g' with
            | token t' => cases hvalue
            | node head' slots' => exact .pure ⟨hg, hmem h, hmem h'⟩
      · have hlength := Green.length_eq_of_values hmore.values_eq
        rw [h, h']
        simp only [List.length_cons, hlength]
        exact .throw _
  · exact .throw _

/-- A tree built from all its steps; everything in it is new. -/
theorem agree_run (steps : List BuildStep) :
    Agree (run steps) (run steps) e e' fun g f g' f' => Matches g f g' f' ∧
      (∀ x, x.Within g → e.New x) ∧ ∀ x, x.Within g' → e'.New x := by
  have hnone (x : Green) : ¬ x.InUse (elements {}) := fun ⟨_, hroot, _⟩ => by cases hroot
  have hb : HandlesMatch (.builder 0 {}) e (.builder 0 {}) e' := by
    refine ⟨rfl, fun g hg => ?_, fun g hg => ?_⟩ <;> cases hg
  refine (agree_steps hb steps).bind fun c c' f f' hf hf' ⟨hc, hleft, hright⟩ => ?_
  refine (agree_root hc).mono fun g h g' h' ⟨hg, hmem, hmem'⟩ =>
    ⟨hg, fun x hx => ?_, fun x hx => ?_⟩
  · exact (hleft x ⟨g, hmem, hx⟩).resolve_left (hnone x)
  · exact (hright x ⟨g', hmem', hx⟩).resolve_left (hnone x)

end Builder

/-- The trees of a text; everything in them is new. -/
theorem agree_parse {e e' : Site} (text : String) :
    Alloc.Agree (parse text) (parse text) e e' fun v f v' f' =>
      ∃ g g', v = .root f.store.tag g ∧ v' = .root f'.store.tag g' ∧ Matches g f g' f' ∧
        (∀ x, x.Within g → e.New x) ∧ ∀ x, x.Within g' → e'.New x := by
  unfold parse
  cases (tokenize text).buildSteps text with
  | error fault => exact ⟨e, e', .refl e, .refl e', .inl ⟨fault, rfl, rfl⟩⟩
  | ok steps =>
    exact (Builder.agree_run steps).bind fun g g' f f' _ _ hg => .get (.pure ⟨g, g', rfl, rfl, hg⟩)

end Verbatim
