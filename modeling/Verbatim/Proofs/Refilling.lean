import Verbatim.Edit
import Verbatim.Proofs.Placing
import Verbatim.Proofs.Sites

/-!
# Replacing a slot

Replacing a slot of a node gives a node of the same kind in which the other slots hold what they
held. Required slots that were empty may get placeholders, which have no text. The slot itself is
gone if a member of a collection was taken away. The replacement fails just if a collection does not
take the new member, or if the node gets too wide.
-/

namespace Verbatim

/-- Whether a node of a kind lets an element of another stand in its slots. A collection takes just
the kinds that it repeats. -/
def Kind.takes (k member : Kind) : Bool :=
  k.layout.members?.all fun members => members.contains member

namespace Green

/-- Slots in which some that were empty now hold elements without text. -/
inductive Filled : List Slot → List Slot → Prop where
  | nil : Filled [] []
  | same {slots filled : List Slot} (slot : Slot) : Filled slots filled →
      Filled (slot :: slots) (slot :: filled)
  | blank {slots filled : List Slot} {g : Green} (hwidth : g.width = 0) (htext : g.text = "") :
      Filled slots filled → Filled (none :: slots) (some g :: filled)

namespace Filled

variable {slots filled : List Slot}

theorem refl (slots : List Slot) : Filled slots slots := by
  induction slots with
  | nil => exact .nil
  | cons slot slots ih => exact .same slot ih

/-- Filling slots in does not change their number. -/
theorem length_eq (h : Filled slots filled) : filled.length = slots.length := by
  induction h with
  | nil => rfl
  | same slot _ ih => rw [List.length_cons, List.length_cons, ih]
  | blank _ _ _ ih => rw [List.length_cons, List.length_cons, ih]

/-- Filling slots in does not make them wider. -/
theorem slotsWidth_eq (h : Filled slots filled) : slotsWidth filled = slotsWidth slots := by
  induction h with
  | nil => rfl
  | same slot _ ih => simpa [slotsWidth] using ih
  | blank hwidth _ _ ih => simpa [slotsWidth, hwidth] using ih

/-- Filling slots in adds no text. -/
theorem charsOf_eq (h : Filled slots filled) : charsOf filled = charsOf slots := by
  induction h with
  | nil => rfl
  | same slot _ ih =>
    cases slot with
    | none => exact ih
    | some g => rw [charsOf_some_cons, charsOf_some_cons, ih]
  | blank _ htext _ ih =>
    rw [charsOf_some_cons, htext, charsOf_none_cons, ih]
    rfl

/-- Slots that hold something are left alone. -/
theorem getElem? (h : Filled slots filled) {index : Nat} {g : Green}
    (hg : slots[index]? = some (some g)) : filled[index]? = some (some g) := by
  induction h generalizing index with
  | nil => cases hg
  | same slot _ ih =>
    cases index with
    | zero => exact hg
    | succ index => exact ih hg
  | blank _ _ _ ih =>
    cases index with
    | zero => cases hg
    | succ index => exact ih hg

theorem take (h : Filled slots filled) (n : Nat) : Filled (slots.take n) (filled.take n) := by
  induction h generalizing n with
  | nil => rw [List.take_nil]; exact .nil
  | same slot _ ih =>
    cases n with
    | zero => exact .nil
    | succ n => exact .same slot (ih n)
  | blank hwidth htext _ ih =>
    cases n with
    | zero => exact .nil
    | succ n => exact .blank hwidth htext (ih n)

theorem drop (h : Filled slots filled) (n : Nat) : Filled (slots.drop n) (filled.drop n) := by
  induction h generalizing n with
  | nil => rw [List.drop_nil]; exact .nil
  | same slot h ih =>
    cases n with
    | zero => exact .same slot h
    | succ n => exact ih n
  | blank hwidth htext h ih =>
    cases n with
    | zero => exact .blank hwidth htext h
    | succ n => exact ih n

end Filled

/-- Whether a replacement takes a member away, so that those behind it move up. -/
def Removes (g : Green) (slot : Slot) : Prop := g.kind.isCollection = true ∧ slot = none

instance (g : Green) (slot : Slot) : Decidable (g.Removes slot) :=
  inferInstanceAs (Decidable (_ ∧ _))

/-- Whether a node lets something be put into one of its slots. Nothing can always be put there. -/
def accepts (g : Green) (slot : Slot) : Bool := slot.all fun x => g.kind.takes x.kind

/-- The characters of a node with a slot replaced. -/
def charsWith (g : Green) (index : Nat) (slot : Slot) : List Char :=
  charsOf (g.slots.take index) ++ (charsOf [slot] ++ charsOf (g.slots.drop (index + 1)))

/-- The slots of a node after one of them was replaced. -/
def Refilled (g : Green) (index : Nat) (slot : Slot) (slots : List Slot) : Prop :=
  ∃ before middle after, slots = before ++ (middle ++ after) ∧
    Filled (g.slots.take index) before ∧ Filled (g.slots.drop (index + 1)) after ∧
    (g.Removes slot ∧ middle = [] ∨ ¬ g.Removes slot ∧ Filled [slot] middle)

section Refilled

variable {g : Green} {index : Nat} {slot : Slot} {slots : List Slot}

/-- Setting a slot after others were filled. -/
theorem refilled_set {s : Slot} (hindex : index < g.slots.length) (hremoves : ¬ g.Removes slot)
    (hslots : Filled g.slots slots) (hs : Filled [slot] [s]) :
    g.Refilled index slot (slots.set index s) := by
  refine ⟨slots.take index, [s], slots.drop (index + 1), ?_, hslots.take index,
    hslots.drop (index + 1), .inr ⟨hremoves, hs⟩⟩
  rw [List.set_eq_take_append_cons_drop, if_pos (hslots.length_eq ▸ hindex)]
  rfl

/-- Cutting a slot of a collection out and putting something there, if anything. -/
theorem refilled_splice (h : g.kind.isCollection = true) :
    g.Refilled index slot
      (g.slots.take index ++ slot.toList.map some ++ g.slots.drop (index + 1)) := by
  refine ⟨_, slot.toList.map some, _, List.append_assoc .., .refl _, .refl _, ?_⟩
  cases slot with
  | none => exact .inl ⟨⟨h, rfl⟩, rfl⟩
  | some x => exact .inr ⟨fun hremoves => (by cases hremoves.2), .refl _⟩

namespace Refilled

/-- The text of the new slots is the old text with that of one slot replaced. -/
theorem charsOf_eq (h : g.Refilled index slot slots) :
    charsOf slots = g.charsWith index slot := by
  obtain ⟨before, middle, after, rfl, hbefore, hafter, hmiddle⟩ := h
  have hslot : charsOf middle = charsOf [slot] := by
    rcases hmiddle with ⟨⟨-, rfl⟩, rfl⟩ | ⟨-, hfilled⟩
    · rfl
    · exact hfilled.charsOf_eq
  rw [Green.charsOf_append, Green.charsOf_append, hbefore.charsOf_eq, hafter.charsOf_eq, hslot,
    charsWith]

variable (hindex : index < g.slots.length)

include hindex

/-- What stands before the slot is as wide as it was. -/
theorem slotsWidth_take (h : g.Refilled index slot slots) :
    slotsWidth (slots.take index) = slotsWidth (g.slots.take index) := by
  obtain ⟨before, middle, after, rfl, hbefore, -, -⟩ := h
  have hlength : before.length = index := by
    rw [hbefore.length_eq, List.length_take]
    omega
  rw [← hlength, List.take_left, hlength, hbefore.slotsWidth_eq]

/-- The new element stands in the slot. -/
theorem getElem?_self {x : Green} (h : g.Refilled index (some x) slots) :
    slots[index]? = some (some x) := by
  obtain ⟨before, middle, after, rfl, hbefore, -, hmiddle⟩ := h
  have hlength : before.length = index := by
    rw [hbefore.length_eq, List.length_take]
    omega
  rcases hmiddle with ⟨⟨-, hnone⟩, -⟩ | ⟨-, hfilled⟩
  · cases hnone
  · cases hfilled with
    | same _ hrest =>
      cases hrest
      simp [← hlength]

/-- The other slots hold what they held; those behind a member that was taken away move up. -/
theorem getElem?_of_ne (h : g.Refilled index slot slots) {j : Nat} (hj : j ≠ index) {d : Green}
    (hd : g.slots[j]? = some (some d)) :
    slots[if g.Removes slot ∧ index < j then j - 1 else j]? = some (some d) := by
  obtain ⟨before, middle, after, rfl, hbefore, hafter, hmiddle⟩ := h
  have hlength : before.length = index := by
    rw [hbefore.length_eq, List.length_take]
    omega
  rcases Nat.lt_or_gt_of_ne hj with hlt | hgt
  · have hd : before[j]? = some (some d) := hbefore.getElem? (by rwa [List.getElem?_take_of_lt hlt])
    rw [if_neg (by omega), List.getElem?_append_left (by omega), hd]
  · have hd : after[j - (index + 1)]? = some (some d) := by
      refine hafter.getElem? ?_
      rw [List.getElem?_drop, show index + 1 + (j - (index + 1)) = j by omega, hd]
    rcases hmiddle with ⟨hremoves, rfl⟩ | ⟨hremoves, hfilled⟩
    · rw [if_pos ⟨hremoves, hgt⟩, List.nil_append, List.getElem?_append_right (by omega),
        show j - 1 - before.length = j - (index + 1) by omega, hd]
    · have hone : middle.length = 1 := hfilled.length_eq
      rw [if_neg fun hboth => hremoves hboth.1, List.getElem?_append_right (by omega),
        List.getElem?_append_right (by omega),
        show j - before.length - middle.length = j - (index + 1) by omega, hd]

end Refilled

end Refilled

end Green

namespace Alloc

/-- The action succeeds and gives what is good, or it fails and there is a reason for it. -/
def Yields {α : Type} (x : Alloc α) (e : Site) (good : α → Site → Prop) (reason : Prop) : Prop :=
  ∃ f, e.Evolves f ∧ ((∃ a, x e.store = (.ok a, f.store) ∧ good a f) ∨
    ∃ fault, x e.store = (.error fault, f.store) ∧ reason)

section Rules

variable {α β : Type} {x : Alloc α} {k : α → Alloc β} {e : Site} {good : α → Site → Prop}
  {better : β → Site → Prop} {reason cause : Prop}

/-- A run that yields something may be followed by another. -/
theorem Yields.bind (h : Yields x e good reason) (hreason : reason → cause)
    (hk : ∀ a f, e.Evolves f → good a f → Yields (k a) f better cause) :
    Yields (x >>= k) e better cause := by
  obtain ⟨f, hf, ⟨a, hx, hgood⟩ | ⟨fault, hx, hfault⟩⟩ := h
  · obtain ⟨f', hf', hout⟩ := hk a f hf hgood
    refine ⟨f', hf.trans hf', ?_⟩
    rwa [bind_eq_of_ok hx]
  · exact ⟨f, hf, .inr ⟨fault, bind_eq_of_error hx, hreason hfault⟩⟩

/-- Giving back what is good yields it. -/
theorem Yields.pure {a : α} (h : good a e) : Yields (pure a) e good reason :=
  ⟨e, .refl e, .inl ⟨a, rfl, h⟩⟩

/-- What is known of the outcome may be weakened. -/
theorem Yields.mono {fine : α → Site → Prop} (h : Yields x e good reason)
    (hfine : ∀ a f, e.Evolves f → good a f → fine a f) (hreason : reason → cause) :
    Yields x e fine cause := by
  obtain ⟨f, hf, ⟨a, hx, hgood⟩ | ⟨fault, hx, hfault⟩⟩ := h
  · exact ⟨f, hf, .inl ⟨a, hx, hfine a f hf hgood⟩⟩
  · exact ⟨f, hf, .inr ⟨fault, hx, hreason hfault⟩⟩

/-- An action that fails if something is not accepted or gets too wide, and only then. -/
theorem Yields.exists_ok_iff {accepted : Bool} {width : Nat}
    (h : Yields x e good (accepted = false ∨ Width.limit ≤ width))
    (hgood : ∀ a f, good a f → accepted = true ∧ width < Width.limit) :
    (∃ a, (x e.store).1 = .ok a) ↔ accepted = true ∧ width < Width.limit := by
  obtain ⟨f, -, ⟨a, hx, ha⟩ | ⟨fault, hx, hfault⟩⟩ := h
  · rw [hx]
    exact iff_of_true ⟨a, rfl⟩ (hgood a f ha)
  · rw [hx]
    refine iff_of_false ?_ ?_
    · rintro ⟨a, ha⟩
      cases ha
    · rintro ⟨haccepted, hnarrow⟩
      rcases hfault with hrefused | hwide
      · exact Bool.false_ne_true (hrefused.symm.trans haccepted)
      · exact Nat.not_lt.mpr hwide hnarrow

/-- What comes out of an action that succeeds is good. -/
theorem Yields.of_ok {a : α} (h : Yields x e good reason) (ha : (x e.store).1 = .ok a) :
    ∃ f, good a f := by
  obtain ⟨f, -, ⟨b, hx, hgood⟩ | ⟨fault, hx, -⟩⟩ := h
  · rw [hx] at ha
    cases ha
    exact ⟨f, hgood⟩
  · rw [hx] at ha
    cases ha

/-- A condition that is checked first. -/
theorem Yields.guard {c : Prop} [Decidable c] {fault : Fault} {l : PUnit → Alloc α}
    (h : c → Yields x e good reason) (hreason : ¬ c → reason) :
    Yields (if c then x else Bind.bind (MonadExcept.throw fault) l) e good reason := by
  by_cases hc : c
  · rw [if_pos hc]
    exact h hc
  · rw [if_neg hc]
    exact ⟨e, .refl e, .inr ⟨fault, rfl, hreason hc⟩⟩

end Rules

variable {e : Site}

/-- A node comes out if its slots are not too wide. -/
theorem yields_allocNode (kind : Kind) (presence : Presence) {slots : List Slot}
    (h : e.KnowsAll slots) :
    Yields (allocNode kind presence slots) e
      (fun g f => f.Knows g ∧ g.isNode = true ∧ g.kind = kind ∧ g.slots = slots)
      (Width.limit ≤ Green.slotsWidth slots) := by
  obtain ⟨f, hf, ⟨hwide, hrun⟩ | ⟨g, -, hrun, hg, -⟩⟩ := allocNode_outcome kind presence h
  · exact ⟨f, hf, .inr ⟨_, hrun, hwide⟩⟩
  · refine ⟨f, hf, .inl ⟨g, hrun, hg.knows, ?_⟩⟩
    obtain ⟨id, rfl⟩ := hg.eq
    exact ⟨rfl, rfl, rfl⟩

/-- A placeholder always comes out, and has no text. -/
theorem yields_missing (kind : Kind) :
    Yields (missing kind) e (fun g f => f.Knows g ∧ g.width = 0 ∧ g.text = "") False := by
  unfold missing
  by_cases hkind : kind.isToken = true
  · rw [if_pos hkind, map_eq_pure_bind]
    have haccept : TokenData.accept ⟨kind, .missing, "", [], []⟩ = .ok () := by
      rw [TokenData.accept, if_pos hkind]
      rfl
    obtain ⟨f, hf, ⟨fault, herror, -⟩ | ⟨t, -, hrun, hdata, hknows, -⟩⟩ :=
      makeToken_outcome e ⟨kind, .missing, "", [], []⟩
    · cases haccept.symm.trans herror
    · refine ⟨f, hf, .inl ⟨.token t, bind_eq_of_ok hrun, hknows, ?_, ?_⟩⟩
      · simp [Green.width, TokenData.width, hdata]
      · apply String.toList_inj.mp
        simp [Green.toList_text, Green.leaves, hdata]
  · rw [if_neg hkind, missingNode, if_pos (by simpa [Kind.isNode] using hkind)]
    have hslots : e.KnowsAll (List.replicate kind.slotSpecs.length none) := fun c hc => by
      simp at hc
    have hwidth : Green.slotsWidth (List.replicate kind.slotSpecs.length none) = 0 :=
      sumOf_replicate ..
    refine (yields_allocNode kind .missing hslots).mono (fun g f _ hout => ?_) fun hwide => ?_
    · obtain ⟨hknows, hnode, -, hg⟩ := hout
      have htext : g.text = "" := by
        apply String.toList_inj.mp
        rw [Green.toList_text_of_slots hnode, hg, Green.charsOf, Green.leavesOf_replicate_none]
        rfl
      refine ⟨hknows, ?_, htext⟩
      rw [Registry.Knows.width_eq hknows, htext]
      rfl
    · rw [hwidth] at hwide
      exact absurd hwide (by decide)

end Alloc

namespace Green

open Alloc

variable {e : Site} {g : Green} {index : Nat} {slot : Slot}

/-- An empty slot gets a placeholder or stays empty. -/
theorem yields_fillSlot (spec : Option SlotSpec) (h : e.KnowsAll [slot]) :
    Yields (fillSlot spec slot) e (fun s f => f.KnowsAll [s] ∧ Filled [slot] [s]) False := by
  cases slot with
  | some x => exact .pure ⟨h, .refl _⟩
  | none =>
    rcases spec with _ | spec
    · exact .pure ⟨h, .refl _⟩
    · unfold fillSlot
      dsimp only
      split
      · exact .pure ⟨h, .refl _⟩
      · rw [map_eq_pure_bind]
        refine (yields_missing spec.placeholder).bind False.elim
          fun x f _ ⟨hknows, hwidth, htext⟩ => .pure ⟨fun c hc => ?_, .blank hwidth htext .nil⟩
        exact Option.some.inj (List.mem_singleton.mp hc) ▸ hknows

/-- Required slots are filled in, and this never fails. -/
theorem yields_fillRequired (specs : List SlotSpec) {slots : List Slot} (h : e.KnowsAll slots) :
    Yields (fillRequired specs slots) e (fun filled f => f.KnowsAll filled ∧ Filled slots filled)
      False := by
  induction specs generalizing e slots with
  | nil =>
    simp only [fillRequired]
    exact .pure ⟨h, .refl slots⟩
  | cons spec specs ih =>
    cases slots with
    | nil => exact .pure ⟨h, .nil⟩
    | cons slot slots =>
      rw [fillRequired]
      have hslot : e.KnowsAll [slot] := fun c hc =>
        h c (List.mem_singleton.mp hc ▸ List.mem_cons_self)
      refine (yields_fillSlot (some spec) hslot).bind False.elim fun s f hf ⟨hs, hsfilled⟩ => ?_
      have hslots : e.KnowsAll slots := fun c hc => h c (List.mem_cons_of_mem _ hc)
      refine (ih (hslots.mono hf)).bind False.elim fun filled f' hf' ⟨hfilled, hrest⟩ =>
        .pure ⟨fun c hc => ?_, ?_⟩
      · rcases List.mem_cons.mp hc with hc | hc
        · exact hs.mono hf' c (List.mem_singleton.mpr hc)
        · exact hfilled c hc
      · cases hsfilled with
        | same _ _ => exact .same _ hrest
        | blank hwidth htext _ => exact .blank hwidth htext hrest

/-- What a node with one slot replaced looks like. -/
structure IsRefilled (g : Green) (index : Nat) (slot : Slot) (c : Green) : Prop where
  isNode : c.isNode = true
  kind_eq : c.kind = g.kind
  slots : g.Refilled index slot c.slots

/-- An element that was refilled spells the old text with that of one slot replaced. -/
theorem IsRefilled.toList_text {c : Green} (h : g.IsRefilled index slot c) :
    c.text.toList = g.charsWith index slot := by
  rw [toList_text_of_slots h.isNode, h.slots.charsOf_eq]

/-- What stands below the other slots is found there. -/
theorem IsRefilled.descend? {c d : Green} (h : g.IsRefilled index slot c)
    (hindex : index < g.slots.length) {j : Nat} (hj : j ≠ index) {path : List Nat}
    (hd : g.descend? (j :: path) = some d) :
    c.descend? ((if g.Removes slot ∧ index < j then j - 1 else j) :: path) = some d := by
  obtain ⟨x, hx, hd⟩ := exists_slot_of_descend? hd
  rw [descend?_cons_of_slot (h.slots.getElem?_of_ne hindex hj hx), hd]

/-- A node that is made of the slots after one was replaced. -/
theorem yields_refilled {presence : Presence} {slots : List Slot} (hslots : e.KnowsAll slots)
    (h : g.Refilled index slot slots) :
    Yields (allocNode g.kind presence slots) e (fun c f => f.Knows c ∧ g.IsRefilled index slot c)
      (Width.limit ≤ Text.byteLength (g.charsWith index slot)) := by
  refine (yields_allocNode g.kind presence hslots).mono (fun c f _ ⟨hc, hnode, hkind, heq⟩ => ?_)
    fun hwide => ?_
  · exact ⟨hc, hnode, hkind, heq ▸ h⟩
  · rwa [Registry.KnowsAll.slotsWidth_eq hslots, h.charsOf_eq] at hwide

/-- What replacing a slot of a node yields. -/
abbrev YieldsRefilled (x : Alloc Green) (e : Site) (g : Green) (index : Nat) (slot : Slot) : Prop :=
  Yields x e (fun c f => (f.Knows c ∧ g.IsRefilled index slot c) ∧ g.accepts slot = true)
    (g.accepts slot = false ∨ Width.limit ≤ Text.byteLength (g.charsWith index slot))

/-- The slot of a collection is cut out, and what is given is put there. -/
theorem yields_spliceSlots (hg : e.Knows g) (hslot : e.KnowsAll [slot])
    (hindex : index < g.slots.length) {members : KindSet}
    (hmembers : g.kind.layout.members? = some members) :
    YieldsRefilled (g.spliceSlots index (index + 1) (slot.toList.map some)) e g index slot := by
  have hslots : e.KnowsAll g.slots := Registry.Knows.knowsAll_slots hg
  have hcollection := Kind.isSome_members?_layout g.kind
  rw [hmembers, Option.isSome_some] at hcollection
  have hall : (slot.toList.map some).all (fun s => s.any fun x => members.contains x.kind) =
      g.accepts slot := by
    cases slot with
    | none => rfl
    | some x => simp [accepts, Kind.takes, hmembers]
  have hknows : e.KnowsAll
      (g.slots.take index ++ slot.toList.map some ++ g.slots.drop (index + 1)) := by
    intro c hc
    rcases List.mem_append.mp hc with hc | hc
    · rcases List.mem_append.mp hc with hc | hc
      · exact hslots c (List.mem_of_mem_take hc)
      · cases slot with
        | none => cases hc
        | some x => exact hslot c hc
    · exact hslots c (List.mem_of_mem_drop hc)
  unfold spliceSlots
  refine .guard (fun _ => ?_) fun h => absurd ⟨Nat.le_succ index, hindex⟩ h
  rw [hmembers]
  dsimp only
  rw [hall]
  refine .guard (fun haccepts => ?_) fun h => .inl (eq_false_of_ne_true h)
  exact (yields_refilled hknows (refilled_splice hcollection.symm)).mono
    (fun c f _ hc => ⟨hc, haccepts⟩) .inr

/-- A slot that the layout declares is set, after others may have been filled. -/
theorem yields_setSlot {presence : Presence} {slots : List Slot} {s : Slot}
    (hslots : e.KnowsAll slots) (hs : e.KnowsAll [s]) (hindex : index < g.slots.length)
    (hfixed : g.kind.layout.members? = none) (hfilled : Filled g.slots slots)
    (hsfilled : Filled [slot] [s]) :
    YieldsRefilled (allocNode g.kind presence (slots.set index s)) e g index slot := by
  have hcollection := Kind.isSome_members?_layout g.kind
  rw [hfixed, Option.isSome_none] at hcollection
  have haccepts : g.accepts slot = true := by cases slot <;> simp [accepts, Kind.takes, hfixed]
  have hremoves : ¬ g.Removes slot := fun h => Bool.false_ne_true (hcollection.trans h.1)
  refine (yields_refilled (fun c hc => ?_) (refilled_set hindex hremoves hfilled hsfilled)).mono
    (fun c f _ hc => ⟨hc, haccepts⟩) .inr
  rcases List.mem_or_eq_of_mem_set hc with hc | hc
  · exact hslots c hc
  · exact hs c (hc ▸ List.mem_cons_self)

/-- A slot of a node is replaced, unless the node does not accept what is put there or gets too
wide. -/
theorem yields_replaceSlot (hg : e.Knows g) (hslot : e.KnowsAll [slot])
    (hindex : index < g.slots.length) :
    YieldsRefilled (g.replaceSlot index slot) e g index slot := by
  have hslots : e.KnowsAll g.slots := Registry.Knows.knowsAll_slots hg
  unfold replaceSlot
  refine .guard (fun _ => ?_) fun h => absurd hindex h
  dsimp only
  cases hmembers : g.kind.layout.members? with
  | some members =>
    rw [Option.isSome_some, if_pos rfl]
    exact yields_spliceSlots hg hslot hindex hmembers
  | none =>
    rw [Option.isSome_none, if_neg Bool.false_ne_true]
    refine (yields_fillSlot _ hslot).bind False.elim fun s f hf ⟨hs, hsfilled⟩ => ?_
    split
    · -- The placeholder becomes a present node; first its other required slots are filled.
      refine (yields_fillRequired _ (hslots.mono hf)).bind False.elim
        fun slots f' hf' ⟨hfilled, hrest⟩ => ?_
      exact yields_setSlot hfilled (hs.mono hf') hindex hmembers hrest hsfilled
    · exact yields_setSlot (hslots.mono hf) hs hindex hmembers (.refl _) hsfilled

end Green

end Verbatim
