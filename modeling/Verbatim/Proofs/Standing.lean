import Verbatim.Proofs.Leaves
import Verbatim.Proofs.Parsing

/-!
# Where views stand

A view of a tree that was built from a sketch shows a part of the sketch, and it stands behind the
tokens that were read before that part. Its offset is the width of these tokens, so that offsets can
be compared by counting tokens.
-/

namespace Verbatim

namespace Sketch

theorem widthOf_eq (slots : List Sketch) : widthOf slots = Token.widthOf (tokensOf slots) := rfl

/-- What stands in slots was built from one of the sketches. -/
theorem BuiltAll.exists_of_mem {slots : List Sketch} {built : List Slot} (h : BuiltAll slots built)
    {g : Green} (hg : some g ∈ built) : ∃ s ∈ slots, s.Built (some g) := by
  induction slots generalizing built with
  | nil =>
    obtain rfl := h
    cases hg
  | cons s slots ih =>
    obtain ⟨slot, rest, rfl, hs, hrest⟩ := h
    rcases List.mem_cons.mp hg with rfl | hg
    · exact ⟨s, List.mem_cons_self, hs⟩
    · obtain ⟨t, ht, hbuilt⟩ := ih hrest hg
      exact ⟨t, List.mem_cons_of_mem _ ht, hbuilt⟩

/-- An element has the kind that its sketch shows. -/
theorem Built.kind_eq {s : Sketch} {slot : Slot} (h : s.Built slot) :
    slot.map Green.kind = s.kind? := by
  cases s with
  | token t =>
    obtain ⟨g, rfl, hg⟩ := h
    simp [Green.kind, hg, Token.stored, kind?]
  | missing kind =>
    simp only [Built] at h
    split at h
    · obtain ⟨g, rfl, hg⟩ := h
      simp [Green.kind, hg, kind?]
    · obtain ⟨id, rfl⟩ := h
      rfl
  | absent =>
    obtain rfl := h
    rfl
  | node kind late slots =>
    obtain ⟨id, built, rfl, -⟩ := h
    rfl

/-- Only an empty slot shows nothing. -/
theorem Built.eq_absent {s : Sketch} (h : s.Built none) : s = absent := by
  have hkind := h.kind_eq
  cases s with
  | absent => rfl
  | token | missing | node => cases hkind

/-- What stands in a slot of an element was built from one of the slots of a node. -/
theorem Built.exists_node_of_slot {s : Sketch} {g c : Green} (h : s.Built (some g))
    (hc : some c ∈ g.slots) : ∃ kind late slots, s = node kind late slots ∧ g.kind = kind ∧
      ∃ t ∈ slots, t.Built (some c) := by
  cases s with
  | token t =>
    obtain ⟨_, hg, -⟩ := h
    simp [Option.some.inj hg, Green.slots] at hc
  | missing kind =>
    simp only [Built] at h
    split at h
    · obtain ⟨_, hg, -⟩ := h
      simp [Option.some.inj hg, Green.slots] at hc
    · obtain ⟨id, hg⟩ := h
      simp [Option.some.inj hg, Green.slots] at hc
  | absent => cases h
  | node kind late slots =>
    obtain ⟨id, built, hg, hbuilt⟩ := h
    obtain rfl := Option.some.inj hg
    obtain ⟨t, ht, hbuilt⟩ := hbuilt.exists_of_mem hc
    exact ⟨kind, late, slots, rfl, rfl, t, ht, hbuilt⟩

/-- What stands in the slots of an element that was built from a sketch was built from one, too. -/
theorem Built.exists_of_mem_slots {s : Sketch} {g c : Green} (h : s.Built (some g))
    (hc : some c ∈ g.slots) : ∃ t : Sketch, t.Built (some c) := by
  obtain ⟨_, _, _, _, _, t, _, ht⟩ := h.exists_node_of_slot hc
  exact ⟨t, ht⟩

end Sketch

namespace View

/-- A view of a tree with a sketch shows a part of it, and these tokens were read before. -/
inductive Shows (whole : Sketch) : View → Sketch → List Token → Prop
  | root {store : Nat} {g : Green} (hconforms : whole.Conforms) (hbuilt : whole.Built (some g)) :
    Shows whole (.root store g) whole []
  | child {v : View} {kind : Kind} {late : Bool} {front back : List Sketch} {s : Sketch}
    {before : List Token} {g : Green}
    (hv : Shows whole v (.node kind late (front ++ s :: back)) before)
    (hbuilt : s.Built (some g)) :
    Shows whole (.child v front.length (v.offset + Sketch.widthOf front) g) s
      (before ++ Sketch.tokensOf front)

namespace Shows

variable {whole s : Sketch} {v : View} {before : List Token}

theorem built (h : Shows whole v s before) : s.Built (some v.green) := by
  cases h with
  | root _ hbuilt => exact hbuilt
  | child _ hbuilt => exact hbuilt

theorem conforms (h : Shows whole v s before) : s.Conforms := by
  induction h with
  | root hconforms _ => exact hconforms
  | child _ _ ih => exact ih.of_mem (List.mem_append_right _ List.mem_cons_self)

/-- A view stands where the tokens before it end. -/
theorem offset_eq (h : Shows whole v s before) : v.offset = Token.widthOf before := by
  induction h with
  | root _ _ => rfl
  | child _ _ ih => rw [Token.widthOf_append, ← ih, offset, Sketch.widthOf_eq]

end Shows

section

variable {closed : View → Bool} {whole : Sketch}

theorem entriesIn_replicate_none (parent : View) (index offset n : Nat) :
    entriesIn closed parent index offset (List.replicate n none) = [] := by
  induction n generalizing index with
  | zero => rfl
  | succ n ih => exact ih (index + 1)

/-- Nothing is entered below a placeholder. -/
theorem entriesAt_of_missing {v : View} {kind : Kind}
    (h : (Sketch.missing kind).Built (some v.green)) : entriesAt closed v v.green = [v] := by
  simp only [Sketch.Built] at h
  split at h
  · obtain ⟨g, hg, -⟩ := h
    rw [Option.some.inj hg, entriesAt]
  · obtain ⟨id, hg⟩ := h
    rw [Option.some.inj hg, entriesAt, entriesIn_replicate_none, ite_self]

/-- What a traversal of the slots of a node enters is a child of it, or stands below one. -/
theorem exists_child_of_mem_entriesIn {v d : View} {kind : Kind} {late : Bool}
    {front back : List Sketch} {before : List Token} {built : List Slot}
    (hv : Shows whole v (.node kind late (front ++ back)) before)
    (hback : Sketch.BuiltAll back built)
    (hd : d ∈ entriesIn closed v front.length (v.offset + Sketch.widthOf front) built) :
    ∃ s ∈ back, ∃ c before', Shows whole c s before' ∧ d ∈ entriesAt closed c c.green := by
  induction back generalizing front built with
  | nil =>
    obtain rfl := hback
    cases hd
  | cons s back ih =>
    obtain ⟨slot, rest, rfl, hs, hrest⟩ := hback
    have hnext (hd : d ∈ entriesIn closed v (front.length + 1)
        (v.offset + Sketch.widthOf front + slot.elim 0 Green.width) rest) :
        ∃ t ∈ s :: back, ∃ c before', Shows whole c t before' ∧ d ∈ entriesAt closed c c.green := by
      have hfront : (front ++ [s]).length = front.length + 1 := by simp
      have hwidth : v.offset + Sketch.widthOf (front ++ [s]) =
          v.offset + Sketch.widthOf front + slot.elim 0 Green.width := by
        rw [hs.width_eq, Sketch.widthOf_eq, Sketch.tokensOf_append, Token.widthOf_append]
        simp [Sketch.widthOf, Token.widthOf, Sketch.width, Sketch.tokensOf, Nat.add_assoc]
      rw [← hfront, ← hwidth] at hd
      obtain ⟨t, ht, hshows⟩ := @ih (front ++ [s]) rest (by simpa using hv) hrest hd
      exact ⟨t, List.mem_cons_of_mem _ ht, hshows⟩
    cases slot with
    | none => exact hnext hd
    | some g =>
      rw [entriesIn] at hd
      rcases List.mem_append.mp hd with hd | hd
      · exact ⟨s, List.mem_cons_self, _, _, .child hv hs, hd⟩
      · exact hnext hd

/-- Everything that a traversal enters shows a part of the sketch. -/
theorem exists_shows_of_mem_entriesAt {s : Sketch} {v : View} {before : List Token}
    (hv : Shows whole v s before) :
    ∀ d ∈ entriesAt closed v v.green, ∃ t before', Shows whole d t before' := by
  induction s using Sketch.induct generalizing v before with
  | token t =>
    obtain ⟨g, hg, -⟩ := hv.built
    intro d hd
    rw [Option.some.inj hg, entriesAt, List.mem_singleton] at hd
    exact ⟨_, _, hd ▸ hv⟩
  | missing kind =>
    intro d hd
    rw [entriesAt_of_missing hv.built, List.mem_singleton] at hd
    exact ⟨_, _, hd ▸ hv⟩
  | absent => cases hv.built
  | node kind late slots ih =>
    obtain ⟨id, built, hg, hbuilt⟩ := hv.built
    intro d hd
    rw [Option.some.inj hg, entriesAt] at hd
    rcases List.mem_cons.mp hd with rfl | hd
    · exact ⟨_, _, hv⟩
    · split at hd
      · cases hd
      · have hfirst : d ∈ entriesIn closed v ([] : List Sketch).length
            (v.offset + Sketch.widthOf []) built := hd
        obtain ⟨t, ht, c, before', hc, hd⟩ := exists_child_of_mem_entriesIn hv hbuilt hfirst
        exact ih t ht hc d hd

theorem mem_entriesAt_self (closed : View → Bool) (v : View) (g : Green) :
    v ∈ entriesAt closed v g := by
  cases g <;> simp [entriesAt]

/-- A child is entered, unless its parent is closed. -/
theorem mem_entriesIn_of_mem_placeSlots {parent c : View} {index offset : Nat} {slots : List Slot}
    (h : some c ∈ placeSlots parent index offset slots) :
    c ∈ entriesIn closed parent index offset slots := by
  induction slots generalizing index offset with
  | nil => cases h
  | cons slot rest ih =>
    cases slot with
    | none =>
      simp only [placeSlots, List.mem_cons, reduceCtorEq, false_or] at h
      exact ih h
    | some g =>
      simp only [placeSlots, List.mem_cons, Option.some.injEq] at h
      rw [entriesIn]
      rcases h with rfl | h
      · exact List.mem_append_left _ (mem_entriesAt_self ..)
      · exact List.mem_append_right _ (ih h)

theorem exists_shows_of_mem_children {s : Sketch} {v c : View} {before : List Token}
    (hv : Shows whole v s before) (hc : c ∈ v.children) :
    ∃ t before', Shows whole c t before' := by
  refine @exists_shows_of_mem_entriesAt (fun _ => false) _ _ _ _ hv c ?_
  simp only [children, List.mem_filterMap] at hc
  obtain ⟨slot, hmem, rfl⟩ := hc
  have hentered := @mem_entriesIn_of_mem_placeSlots (fun _ => false) _ _ _ _ _ hmem
  cases hg : v.green with
  | token t => simp [slots, hg, Green.slots, placeSlots] at hmem
  | node head slots =>
    rw [hg] at hentered
    exact List.mem_cons_of_mem _ hentered

end

end View

/-- The root of the tree of a text shows the sketch of its file. -/
theorem Green.Parsed.shows {g : Green} {text : String} {items : List Sketch} {n : Nesting}
    (h : g.Parsed text items n) (store : Nat) :
    View.Shows (.file items (tokenize text).eof) (.root store g)
      (.file items (tokenize text).eof) [] :=
  .root h.reads.conforms_file h.built

end Verbatim
