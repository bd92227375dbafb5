import Verbatim.Proofs.Entering
import Verbatim.Proofs.Standing

/-!
# Conditions that hold everywhere

What the grammar decides, it decides from the tokens that are still to come. A condition on the
slots of a sketch is therefore stated together with the tokens after the slot, and it holds
everywhere if it holds of the sketch and of all that is below. Every view of a tree that was built
from the sketch then shows a part for which the condition holds.
-/

namespace Verbatim

/-- A list is split at each of its positions. -/
theorem exists_append_of_getElem? {α : Type} {l : List α} {index : Nat} {a : α}
    (h : l[index]? = some a) : ∃ front back, l = front ++ a :: back ∧ front.length = index := by
  obtain ⟨hlt, rfl⟩ := List.getElem?_eq_some_iff.mp h
  refine ⟨l.take index, l.drop (index + 1), ?_, ?_⟩
  · rw [List.getElem_cons_drop, List.take_append_drop]
  · rw [List.length_take]
    exact Nat.min_eq_left (Nat.le_of_lt hlt)

namespace Sketch

variable {P Q : Sketch → List Token → Prop}

mutual
/-- A condition holds of a slot and of everything below it, each with the tokens after it. -/
def Everywhere (P : Sketch → List Token → Prop) (after : List Token) : Sketch → Prop
  | token t => P (token t) after
  | missing kind => P (missing kind) after
  | absent => P absent after
  | node kind late slots => P (node kind late slots) after ∧ EverywhereIn P after slots
/-- A condition holds everywhere in some slots. -/
def EverywhereIn (P : Sketch → List Token → Prop) (after : List Token) : List Sketch → Prop
  | [] => True
  | s :: rest => s.Everywhere P (tokensOf rest ++ after) ∧ EverywhereIn P after rest
end

theorem Everywhere.here {s : Sketch} {after : List Token} (h : s.Everywhere P after) :
    P s after := by
  cases s with
  | token | missing | absent => exact h
  | node => exact h.1

/-- The slots of the front stand before the tokens of the back. -/
theorem everywhereIn_append {a b : List Sketch} {after : List Token} :
    EverywhereIn P after (a ++ b) ↔
      EverywhereIn P (tokensOf b ++ after) a ∧ EverywhereIn P after b := by
  induction a with
  | nil => simp [EverywhereIn]
  | cons s rest ih => simp [EverywhereIn, ih, and_assoc]

theorem everywhereIn_singleton {s : Sketch} {after : List Token} :
    EverywhereIn P after [s] ↔ s.Everywhere P after := by
  simp [EverywhereIn, tokensOf]

theorem everywhereIn_map_token {tokens after : List Token} (h : ∀ t after, P (token t) after) :
    EverywhereIn P after (tokens.map token) := by
  induction tokens with
  | nil => trivial
  | cons t rest ih => exact ⟨h .., ih⟩

/-- A condition may be weakened, and the tokens after the sketch replaced by others that are related
to them, if the condition allows it. -/
theorem Everywhere.imp {R : List Token → List Token → Prop}
    (hR : ∀ tokens {a b}, R a b → R (tokens ++ a) (tokens ++ b))
    (h : ∀ s {a b}, R a b → P s a → Q s b) {s : Sketch} {a b : List Token} (hab : R a b)
    (hs : s.Everywhere P a) : s.Everywhere Q b := by
  induction s using Sketch.induct generalizing a b with
  | token t => exact h _ hab hs
  | missing kind => exact h _ hab hs
  | absent => exact h _ hab hs
  | node kind late slots ih =>
    refine ⟨h _ hab hs.1, ?_⟩
    have hslots := hs.2
    clear hs
    induction slots with
    | nil => trivial
    | cons s rest ihrest =>
      exact ⟨ih s List.mem_cons_self (hR _ hab) hslots.1,
        ihrest (fun t ht => ih t (List.mem_cons_of_mem _ ht)) hslots.2⟩

/-- If a condition does not look at the tokens, it holds everywhere in slots if it does in each. -/
theorem everywhereIn_of_forall {P : Sketch → Prop} {slots : List Sketch} {a b : List Token}
    (h : ∀ s ∈ slots, s.Everywhere (fun s _ => P s) a) : EverywhereIn (fun s _ => P s) b slots := by
  induction slots with
  | nil => trivial
  | cons s rest ih =>
    refine ⟨?_, ih fun t ht => h t (List.mem_cons_of_mem _ ht)⟩
    exact @Everywhere.imp (fun s _ => P s) (fun s _ => P s) (fun _ _ => True)
      (fun _ _ _ _ => trivial) (fun _ _ _ _ hs => hs) _ _ _ trivial (h s List.mem_cons_self)

/-- What was built in a slot was built from the sketch in its place. -/
theorem BuiltAll.exists_of_getElem? {slots : List Sketch} {built : List Slot} {slot : Slot}
    {index : Nat} (h : BuiltAll slots built) (hslot : built[index]? = some slot) :
    ∃ s, slots[index]? = some s ∧ s.Built slot := by
  induction slots generalizing built index with
  | nil =>
    obtain rfl := h
    cases hslot
  | cons s slots ih =>
    obtain ⟨first, rest, rfl, hs, hrest⟩ := h
    cases index with
    | zero =>
      cases hslot
      exact ⟨s, rfl, hs⟩
    | succ index => exact ih hrest hslot

/-- The slots of a node that was built are split as its sketch is. -/
theorem BuiltAll.exists_append {front back : List Sketch} {built : List Slot}
    (h : BuiltAll (front ++ back) built) :
    ∃ x y, built = x ++ y ∧ BuiltAll front x ∧ BuiltAll back y := by
  induction front generalizing built with
  | nil => exact ⟨[], built, rfl, rfl, h⟩
  | cons s front ih =>
    obtain ⟨slot, rest, rfl, hs, hrest⟩ := h
    obtain ⟨x, y, rfl, hx, hy⟩ := ih hrest
    exact ⟨slot :: x, y, rfl, ⟨slot, x, rfl, hs, hx⟩, hy⟩

end Sketch

/-- What stands in a declared slot is admitted there. -/
theorem Layout.admits_getElem? {layout : Layout} {kinds : List (Option Kind)} {index : Nat}
    {spec : SlotSpec} (h : layout.admits kinds = true) (hspec : layout.slots[index]? = some spec) :
    ∃ kind, kinds[index]? = some kind ∧ spec.admits kind = true := by
  cases layout with
  | token | collection => simp [slots] at hspec
  | fixed specs =>
    simp only [admits, Bool.and_eq_true, beq_iff_eq, List.all_eq_true] at h
    have hlt : index < kinds.length := h.1 ▸ (List.getElem?_eq_some_iff.mp hspec).1
    refine ⟨kinds[index], List.getElem?_eq_getElem hlt, h.2 (spec, kinds[index]) ?_⟩
    refine List.mem_of_getElem? (i := index) ?_
    rw [List.getElem?_zip_eq_some]
    exact ⟨hspec, List.getElem?_eq_getElem hlt⟩

/-- Whether the view shows a token that was read. -/
def View.isRead (v : View) : Bool := !v.isNode && !v.isMissing

namespace View.Shows

variable {whole s : Sketch} {v : View} {before : List Token}

/-- What holds everywhere in a sketch holds of the part that a view shows, before the tokens that
are left. -/
theorem everywhere {P : Sketch → List Token → Prop} (h : Shows whole v s before)
    (hwhole : whole.Everywhere P []) :
    ∃ after, whole.tokens = before ++ (s.tokens ++ after) ∧ s.Everywhere P after := by
  induction h with
  | root => exact ⟨[], by simp, hwhole⟩
  | @child v kind late front back s before g _ _ ih =>
    obtain ⟨after, htokens, -, hslots⟩ := ih
    obtain ⟨-, hs, -⟩ := Sketch.everywhereIn_append.mp hslots
    refine ⟨Sketch.tokensOf back ++ after, ?_, hs⟩
    rw [htokens, Sketch.tokens, Sketch.tokensOf_append, Sketch.tokensOf]
    simp

/-- What a node holds in a slot is shown by the view of that slot. -/
theorem exists_slot {kind : Kind} {late : Bool} {front back : List Sketch}
    (h : Shows whole v (.node kind late (front ++ s :: back)) before) (hs : s ≠ .absent) :
    ∃ c, v.slot? front.length = some c ∧ Shows whole c s (before ++ Sketch.tokensOf front) := by
  obtain ⟨id, built, hg, hbuilt⟩ := h.built
  obtain ⟨x, y, rfl, hfront, slot, rest, rfl, hslot, -⟩ := hbuilt.exists_append
  cases slot with
  | none => exact absurd hslot.eq_absent hs
  | some g =>
    refine ⟨_, ?_, .child h hslot⟩
    have hwidth : Green.slotsWidth x = Sketch.widthOf front :=
      hfront.slotsWidth_eq fun t _ slot ht => ht.width_eq
    rw [slot?_eq, Option.some.inj hg, Green.slots, ← hfront.length_eq, List.take_left,
      List.getElem?_append_right (Nat.le_refl _), Nat.sub_self, hwidth]
    rfl

/-- The view of a slot shows what the node holds there. -/
theorem exists_of_slot {c : View} {index : Nat} (h : Shows whole v s before)
    (hc : v.slot? index = some c) :
    ∃ kind late front t back, s = .node kind late (front ++ t :: back) ∧ front.length = index ∧
      Shows whole c t (before ++ Sketch.tokensOf front) := by
  have hslot := slot?_eq v index
  rw [hc, eq_comm, Option.map_eq_some_iff] at hslot
  obtain ⟨g, hg, -⟩ := hslot
  have hget := Option.join_eq_some_iff.mp hg
  obtain ⟨kind, late, slots, rfl, -⟩ := h.built.exists_node_of_slot (List.mem_of_getElem? hget)
  obtain ⟨id, built, hgreen, hbuilt⟩ := h.built
  rw [Option.some.inj hgreen, Green.slots] at hget
  obtain ⟨t, ht, hfilled⟩ := hbuilt.exists_of_getElem? hget
  obtain ⟨front, back, rfl, rfl⟩ := exists_append_of_getElem? ht
  obtain ⟨c', hc', hshows⟩ := h.exists_slot (by rintro rfl; cases hfilled)
  rw [hc] at hc'
  obtain rfl := Option.some.inj hc'
  exact ⟨kind, late, front, t, back, rfl, rfl, hshows⟩

theorem kind_eq (h : Shows whole v s before) : s.kind? = some v.kind := h.built.kind_eq.symm

/-- In a slot that has to be filled stands something that the layout accepts. -/
theorem exists_required {kind : Kind} {late : Bool} {slots : List Sketch} {spec : SlotSpec}
    (h : Shows whole v (.node kind late slots) before) (index : Nat)
    (hspec : kind.slotSpecs[index]? = some spec) (hrequired : spec.isOptional = false) :
    ∃ t c before', slots[index]? = some t ∧ v.slot? index = some c ∧ Shows whole c t before' ∧
      spec.accepts.contains c.kind = true := by
  obtain ⟨k, hk, hadmits⟩ := Layout.admits_getElem? h.conforms.2.1 hspec
  rw [List.getElem?_map, Option.map_eq_some_iff] at hk
  obtain ⟨t, ht, rfl⟩ := hk
  obtain ⟨front, back, rfl, rfl⟩ := exists_append_of_getElem? ht
  obtain ⟨c, hc, hshows⟩ := h.exists_slot (by
    rintro rfl
    exact absurd hadmits (by simp [SlotSpec.admits, Sketch.kind?, hrequired]))
  rw [hshows.kind_eq] at hadmits
  exact ⟨t, c, _, ht, hc, hshows, hadmits⟩

/-- A token of the sketch is shown by one that was read. -/
theorem isRead_of_token {t : Token} (h : Shows whole v (.token t) before) : v.isRead = true := by
  obtain ⟨g, hg, hdata⟩ := h.built
  simp [isRead, isNode, isMissing, Option.some.inj hg, Green.isNode, Green.isMissing,
    Green.presence, hdata, Token.stored]

end View.Shows

end Verbatim
