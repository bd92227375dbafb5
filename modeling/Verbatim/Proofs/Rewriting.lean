import Verbatim.Proofs.Assembling
import Verbatim.Proofs.Editing

/-!
# The tree after an edit

Putting something into a slot of a node makes a new node, and its ancestors are made anew with it.
Here is the new tree as a function of the old one: a placeholder that gets something present becomes
a present node, and then its empty required slots are filled; nothing else happens on the way up.
Taking members out of collections is left aside. Up to identities, an edit gives just this tree.
-/

namespace Verbatim

/-- What stands in a slot when nothing was put there: a placeholder if the slot is required. -/
def SlotSpec.fallback (spec : SlotSpec) : Slot :=
  if spec.isOptional then none else some (.blank spec.placeholder)

namespace Green

/-- What goes into a slot that the layout may declare. -/
def fillEmpty (spec : Option SlotSpec) (slot : Slot) : Slot := slot.or (spec.bind (·.fallback))

/-- Slots with all those filled that must not be empty. -/
def fillAll (specs : List SlotSpec) (slots : List Slot) : List Slot :=
  slots.mapIdx fun index slot => fillEmpty specs[index]? slot

@[simp] theorem fillEmpty_some (spec : Option SlotSpec) (x : Green) :
    fillEmpty spec (some x) = some x := rfl

@[simp] theorem fillEmpty_none (slot : Slot) : fillEmpty none slot = slot := Option.or_none

/-- A slot that was filled is not filled again. -/
@[simp] theorem fillEmpty_fillEmpty (spec : Option SlotSpec) (slot : Slot) :
    fillEmpty spec (fillEmpty spec slot) = fillEmpty spec slot := by
  rw [fillEmpty, fillEmpty, Option.or_assoc, Option.or_self]

/-- Whether a slot is filled in does not depend on identities. -/
theorem fillEmpty_map_value (spec : Option SlotSpec) (slot : Slot) :
    (fillEmpty spec slot).map value = fillEmpty spec (slot.map value) := by
  rcases slot with _ | x
  · rcases spec with _ | spec
    · rfl
    · simp only [fillEmpty, Option.none_or, Option.map_none, Option.bind_some, SlotSpec.fallback]
      split <;> simp
  · rfl

/-- Filling adds no text. -/
theorem width_fillEmpty (spec : Option SlotSpec) (slot : Slot) :
    (fillEmpty spec slot).elim 0 width = slot.elim 0 width := by
  rcases slot with _ | x
  · rcases spec with _ | spec
    · rfl
    · simp only [fillEmpty, Option.none_or, Option.bind_some, SlotSpec.fallback]
      split <;> simp
  · rfl

/-- Each slot is filled in as its own spec says. -/
theorem getElem?_fillAll (specs : List SlotSpec) (slots : List Slot) (index : Nat) :
    (fillAll specs slots)[index]? = slots[index]?.map (fillEmpty specs[index]?) :=
  List.getElem?_mapIdx

@[simp] theorem length_fillAll (specs : List SlotSpec) (slots : List Slot) :
    (fillAll specs slots).length = slots.length := List.length_mapIdx

theorem fillAll_nil (slots : List Slot) : fillAll [] slots = slots := by
  refine List.ext_getElem? fun index => ?_
  rw [getElem?_fillAll, List.getElem?_nil]
  cases slots[index]? <;> simp

/-- Slots are filled in one after the other. -/
theorem fillAll_cons (spec : SlotSpec) (specs : List SlotSpec) (slot : Slot) (slots : List Slot) :
    fillAll (spec :: specs) (slot :: slots) =
      fillEmpty (some spec) slot :: fillAll specs slots := by
  simp [fillAll, List.mapIdx_cons]

/-- Filling all slots does not change one that was set to what goes there. -/
theorem fillAll_set (specs : List SlotSpec) (slots : List Slot) (index : Nat) (slot : Slot) :
    fillAll specs (slots.set index (fillEmpty specs[index]? slot)) =
      (fillAll specs slots).set index (fillEmpty specs[index]? slot) := by
  refine List.ext_getElem? fun n => ?_
  rw [getElem?_fillAll, List.getElem?_set, List.getElem?_set, length_fillAll]
  by_cases hn : index = n
  · subst hn
    rw [if_pos rfl, if_pos rfl]
    split <;> simp
  · rw [if_neg hn, if_neg hn, getElem?_fillAll]

/-- Filling slots in and taking values may change places. -/
theorem values_fillAll (specs : List SlotSpec) (slots : List Slot) :
    values (fillAll specs slots) = fillAll specs (values slots) := by
  refine List.ext_getElem? fun n => ?_
  rw [values_eq, values_eq, List.getElem?_map, getElem?_fillAll, getElem?_fillAll,
    List.getElem?_map]
  cases slots[n]? with
  | none => rfl
  | some slot => exact congrArg some (fillEmpty_map_value _ slot)

/-- The value of slots of which one is replaced. -/
theorem values_set (slots : List Slot) (index : Nat) (slot : Slot) :
    values (slots.set index slot) = (values slots).set index (slot.map value) := by
  rw [values_eq, values_eq, List.map_set]

theorem presence_eq_ite (g : Green) : g.presence = if g.isMissing then .missing else .present := by
  rw [isMissing]
  cases g.presence <;> rfl

/-- Values are placeholders when the elements are. -/
theorem all_isMissing_map_value (slot : Slot) :
    (slot.map value).all isMissing = slot.all isMissing := by
  cases slot <;> simp

/-- Whether a node is a placeholder and stays one with something in one of its slots. -/
def dormant (g : Green) (slot : Slot) : Bool :=
  g.isMissing && !g.kind.isCollection && slot.all isMissing

/-- The slots of a node once it is present. -/
def awakened (g : Green) : List Slot :=
  if g.isMissing then fillAll g.kind.slotSpecs g.slots else g.slots

/-- What is put into a slot of a node, or what goes there instead of nothing. -/
def given (g : Green) (index : Nat) (slot : Slot) : Slot := fillEmpty g.kind.slotSpecs[index]? slot

/-- A node with something put into one of its slots. -/
def refit (g : Green) (index : Nat) (slot : Slot) : Green :=
  if g.dormant (g.given index slot) then
    assemble g.kind .missing (g.slots.set index (g.given index slot))
  else assemble g.kind .present (g.awakened.set index (g.given index slot))

section Refit

variable (g : Green) (index : Nat) (slot : Slot)

@[simp] theorem given_some (x : Green) : g.given index (some x) = some x := rfl

/-- Instead of nothing, a placeholder goes into a slot that is required. -/
theorem given_none_eq_some_iff {x : Green} : g.given index none = some x ↔
    ∃ spec, g.kind.slotSpecs[index]? = some spec ∧ spec.isOptional = false ∧
      x = blank spec.placeholder := by
  rw [given, fillEmpty, Option.none_or, Option.bind_eq_some_iff]
  refine exists_congr fun spec => and_congr_right fun _ => ?_
  rw [SlotSpec.fallback]
  cases spec.isOptional <;> simp [eq_comm]

@[simp] theorem length_awakened : g.awakened.length = g.slots.length := by
  unfold awakened
  split <;> simp

@[simp] theorem isNode_refit : (g.refit index slot).isNode = true := by
  unfold refit
  split <;> rfl

@[simp] theorem kind_refit : (g.refit index slot).kind = g.kind := by
  unfold refit
  split <;> rfl

/-- A node is a placeholder after an edit just if it was one and was given nothing else. -/
@[simp] theorem isMissing_refit :
    (g.refit index slot).isMissing = g.dormant (g.given index slot) := by
  unfold refit
  split
  · next h => exact h.symm
  · next h => exact (Bool.eq_false_iff.mpr h).symm

@[simp] theorem length_slots_refit : (g.refit index slot).slots.length = g.slots.length := by
  unfold refit
  split <;> simp

/-- What is put into a slot stands there. -/
theorem getElem?_slots_refit_self (h : index < g.slots.length) :
    (g.refit index slot).slots[index]? = some (g.given index slot) := by
  unfold refit
  split
  · exact List.getElem?_set_self h
  · exact List.getElem?_set_self (by rwa [length_awakened])

/-- The other slots hold what they held; at most, those that were empty are filled. -/
theorem getElem?_slots_refit_of_ne {n : Nat} (h : n ≠ index) :
    (g.refit index slot).slots[n]? = g.slots[n]? ∨
      (g.refit index slot).slots[n]? = g.slots[n]?.map (g.given n) := by
  unfold refit
  split
  · exact .inl (List.getElem?_set_ne h.symm)
  · rw [slots_assemble, List.getElem?_set_ne h.symm]
    unfold awakened
    split
    · exact .inr (getElem?_fillAll ..)
    · exact .inl rfl

/-- The elements in the other slots stay there. -/
theorem getElem?_slots_refit_of_some {n : Nat} {c : Green} (h : n ≠ index)
    (hc : g.slots[n]? = some (some c)) : (g.refit index slot).slots[n]? = some (some c) := by
  rcases g.getElem?_slots_refit_of_ne index slot h with hn | hn
  · rw [hn, hc]
  · rw [hn, hc]
    rfl

/-- What a node is given in a later edit does not depend on an earlier one. -/
theorem given_refit (n : Nat) (s : Slot) : (g.refit index slot).given n s = g.given n s := by
  rw [given, kind_refit, given]

/-- Two things put into a node keep it a placeholder if each of them does. -/
theorem dormant_refit (s : Slot) :
    (g.refit index slot).dormant s = (g.dormant (g.given index slot) && s.all isMissing) := by
  rw [dormant, isMissing_refit, kind_refit, dormant]
  cases g.isMissing <;> cases g.kind.isCollection <;> simp

/-- A node is present with the same slots whether it was made so before or after something was put
into it. -/
theorem awakened_refit :
    (g.refit index slot).awakened = g.awakened.set index (g.given index slot) := by
  rw [awakened, isMissing_refit]
  cases hdormant : g.dormant (g.given index slot) with
  | false =>
    rw [if_neg Bool.false_ne_true, refit, if_neg (Bool.eq_false_iff.mp hdormant), slots_assemble]
  | true =>
    have hmissing : g.isMissing = true := by
      rw [dormant, Bool.and_eq_true, Bool.and_eq_true] at hdormant
      exact hdormant.1.1
    rw [if_pos rfl, kind_refit, refit, if_pos hdormant, slots_assemble, given, fillAll_set,
      awakened, if_pos hmissing]

/-- Putting things into two slots of a node, one after the other. -/
theorem refit_refit (n : Nat) (s : Slot) :
    (g.refit index slot).refit n s =
      if g.dormant (g.given index slot) && (g.given n s).all isMissing then
        assemble g.kind .missing ((g.slots.set index (g.given index slot)).set n (g.given n s))
      else
        assemble g.kind .present
          ((g.awakened.set index (g.given index slot)).set n (g.given n s)) := by
  rw [refit, given_refit, dormant_refit, kind_refit, awakened_refit]
  split
  · next h =>
    rw [Bool.and_eq_true] at h
    rw [refit, if_pos h.1, slots_assemble]
  · rfl

variable {g index}

/-- Things can be put into two slots of a node in either order. -/
theorem refit_comm {n : Nat} (h : index ≠ n) (s : Slot) :
    (g.refit index slot).refit n s = (g.refit n s).refit index slot := by
  have hdormant : (g.dormant (g.given index slot) && (g.given n s).all isMissing) =
      (g.dormant (g.given n s) && (g.given index slot).all isMissing) := by
    simp only [dormant, Bool.and_comm, Bool.and_left_comm]
  rw [refit_refit, refit_refit, hdormant, List.set_comm _ _ h, List.set_comm _ _ h]

/-- What is put into a slot gives way to what is put there next, unless only the former was
present. -/
theorem refit_refit_self {x y : Green} (h : y.isMissing = true → x.isMissing = true) :
    (g.refit index (some x)).refit index (some y) = g.refit index (some y) := by
  have hdormant : (g.dormant (some x) && y.isMissing) = g.dormant (some y) := by
    simp only [dormant, Option.all_some]
    cases hy : y.isMissing with
    | false => simp
    | true => simp [h hy]
  rw [refit_refit, given_some, given_some, Option.all_some, hdormant, List.set_set, List.set_set]
  rfl

variable (g index)

/-- An edit of a node and taking its value may change places. -/
theorem value_refit : (g.refit index slot).value = g.value.refit index (slot.map value) := by
  have hgiven : g.value.given index (slot.map value) = (g.given index slot).map value := by
    rw [given, given, kind_value, fillEmpty_map_value]
  have hdormant : g.value.dormant ((g.given index slot).map value) =
      g.dormant (g.given index slot) := by
    rw [dormant, dormant, isMissing_value, kind_value, all_isMissing_map_value]
  have hawakened : g.value.awakened = values g.awakened := by
    rw [awakened, awakened, isMissing_value, kind_value, slots_value]
    split
    · exact (values_fillAll ..).symm
    · rfl
  rw [refit, refit, hgiven, hdormant, kind_value]
  split
  · rw [value_assemble, values_set, slots_value]
  · rw [value_assemble, values_set, hawakened]

end Refit

section Yields

open Alloc

variable {e : Site} {g : Green} {index : Nat} {slot : Slot}

/-- An empty slot gets what goes there instead of nothing. -/
theorem yields_fillEmpty (spec : Option SlotSpec) (h : e.KnowsAll [slot]) :
    Yields (fillSlot spec slot) e
      (fun s f => f.KnowsAll [s] ∧ s.map value = (fillEmpty spec slot).map value) False := by
  cases slot with
  | some x => exact .pure ⟨h, rfl⟩
  | none =>
    cases spec with
    | none => exact .pure ⟨h, rfl⟩
    | some spec =>
      simp only [fillSlot, fillEmpty, Option.none_or, Option.bind_some, SlotSpec.fallback]
      split
      · exact .pure ⟨h, rfl⟩
      · rw [map_eq_pure_bind]
        refine (yields_blank spec.placeholder).bind False.elim fun x f _ hx => .pure ⟨?_, ?_⟩
        · intro c hc
          exact Option.some.inj (List.mem_singleton.mp hc) ▸ hx.1
        · rw [Option.map_some, hx.2, Option.map_some, value_blank]

/-- A store fills required slots in with what they hold by value. -/
theorem yields_fillAll (specs : List SlotSpec) {slots : List Slot} (h : e.KnowsAll slots) :
    Yields (fillRequired specs slots) e
      (fun filled f => f.KnowsAll filled ∧ values filled = values (fillAll specs slots)) False := by
  induction specs generalizing e slots with
  | nil =>
    rw [fillAll_nil]
    simp only [fillRequired]
    exact .pure ⟨h, rfl⟩
  | cons spec specs ih =>
    cases slots with
    | nil => exact .pure ⟨h, rfl⟩
    | cons slot slots =>
      rw [fillRequired, fillAll_cons]
      have hslot : e.KnowsAll [slot] := fun c hc =>
        h c (List.mem_singleton.mp hc ▸ List.mem_cons_self)
      have hslots : e.KnowsAll slots := fun c hc => h c (List.mem_cons_of_mem _ hc)
      refine (yields_fillEmpty (some spec) hslot).bind False.elim fun s f hf hs => ?_
      refine (ih (hslots.mono hf)).bind False.elim fun filled f' hf' hfilled => .pure ⟨?_, ?_⟩
      · intro c hc
        rcases List.mem_cons.mp hc with hc | hc
        · exact hs.1.mono hf' c (List.mem_singleton.mpr hc)
        · exact hfilled.1 c hc
      · rw [values_eq, values_eq, List.map_cons, List.map_cons, hs.2, ← values_eq, ← values_eq,
          hfilled.2]

/-- A node that is made of slots and something set in one of them. -/
theorem yields_set {presence : Presence} {kind : Kind} {slots slots' : List Slot} {s s' : Slot}
    (hslots : e.KnowsAll slots) (hs : e.KnowsAll [s]) (hvalues : values slots = values slots')
    (hvalue : s.map value = s'.map value) :
    Yields (allocNode kind presence (slots.set index s)) e
      (fun c f => f.Knows c ∧ c.value = (assemble kind presence (slots'.set index s')).value)
      True := by
  have hknows : e.KnowsAll (slots.set index s) := by
    intro c hc
    rcases List.mem_or_eq_of_mem_set hc with hc | hc
    · exact hslots c hc
    · exact hs c (hc ▸ List.mem_cons_self)
  refine (yields_assemble kind presence hknows).mono (fun c f _ hc => ⟨hc.1, hc.2.1.trans ?_⟩)
    fun _ => trivial
  rw [value_assemble, value_assemble, values_set, values_set, hvalues, hvalue]

/-- In a collection, a new member takes the place of an old one. -/
theorem yields_refit_of_members {members : KindSet} {x : Green} (hg : e.Knows g)
    (hslot : e.KnowsAll [some x]) (hindex : index < g.slots.length)
    (hmembers : g.kind.layout.members? = some members) :
    Yields (g.spliceSlots index (index + 1) ((some x).toList.map some)) e
      (fun c f => f.Knows c ∧ c.value = (g.refit index (some x)).value) True := by
  have hslots : e.KnowsAll g.slots := Registry.Knows.knowsAll_slots hg
  have hcollection := Kind.isSome_members?_layout g.kind
  rw [hmembers, Option.isSome_some] at hcollection
  have hspecs : g.kind.slotSpecs = [] := by
    rw [Kind.slotSpecs]
    cases hlayout : g.kind.layout with
    | token => rfl
    | collection members => rfl
    | fixed specs =>
      rw [hlayout] at hmembers
      cases hmembers
  have hrefit : g.refit index (some x) =
      assemble g.kind .present (g.slots.set index (some x)) := by
    have hawakened : g.awakened = g.slots := by
      rw [awakened, hspecs, fillAll_nil, ite_self]
    rw [refit, dormant, ← hcollection, Bool.not_true, Bool.and_false, Bool.false_and,
      if_neg Bool.false_ne_true, hawakened, given_some]
  have hset : g.slots.take index ++ (some x).toList.map some ++ g.slots.drop (index + 1) =
      g.slots.set index (some x) := by
    rw [List.set_eq_take_append_cons_drop, if_pos hindex, List.append_assoc]
    rfl
  unfold spliceSlots
  refine .guard (fun _ => ?_) fun _ => trivial
  rw [hmembers]
  dsimp only
  refine .guard (fun _ => ?_) fun _ => trivial
  rw [hset, hrefit]
  exact yields_set hslots hslot rfl rfl

/-- Replacing a slot, if it succeeds, puts something there, as long as nothing is taken away. -/
theorem yields_refit (hg : e.Knows g) (hslot : e.KnowsAll [slot]) (hremoves : ¬ g.Removes slot) :
    Yields (g.replaceSlot index slot) e
      (fun c f => f.Knows c ∧ c.value = (g.refit index slot).value) True := by
  have hslots : e.KnowsAll g.slots := Registry.Knows.knowsAll_slots hg
  have hcollection := Kind.isSome_members?_layout g.kind
  unfold replaceSlot
  refine .guard (fun hindex => ?_) fun _ => trivial
  dsimp only
  cases hmembers : g.kind.layout.members? with
  | some members =>
    rw [hmembers, Option.isSome_some] at hcollection
    rw [Option.isSome_some, if_pos rfl]
    cases slot with
    | none => exact absurd ⟨hcollection.symm, rfl⟩ hremoves
    | some x => exact yields_refit_of_members hg hslot hindex hmembers
  | none =>
    rw [hmembers, Option.isSome_none] at hcollection
    rw [Option.isSome_none, if_neg Bool.false_ne_true]
    refine (yields_fillEmpty _ hslot).bind False.elim fun s f hf hs => ?_
    have hdormant : g.dormant (g.given index slot) =
        (g.isMissing && !s.any fun x => !x.isMissing) := by
      have hall : (s.any fun x => !x.isMissing) = !(s.map value).all isMissing := by
        cases s <;> simp
      rw [dormant, ← hcollection, Bool.not_false, Bool.and_true, hall, hs.2, Bool.not_not,
        all_isMissing_map_value]
      rfl
    rw [refit, hdormant]
    split
    · next hawake =>
      -- The placeholder becomes a present node; first its other required slots are filled.
      obtain ⟨hmissing, hpresent⟩ := (Bool.and_eq_true ..).mp hawake
      rw [hpresent, Bool.not_true, Bool.and_false, if_neg Bool.false_ne_true, awakened,
        if_pos hmissing]
      refine (yields_fillAll _ (hslots.mono hf)).bind False.elim fun slots f' hf' hfilled => ?_
      exact yields_set hfilled.1 (hs.1.mono hf') hfilled.2 hs.2
    · next hawake =>
      cases hmissing : g.isMissing with
      | false =>
        rw [Bool.false_and, if_neg Bool.false_ne_true, awakened, hmissing,
          if_neg Bool.false_ne_true, presence_eq_ite, hmissing, if_neg Bool.false_ne_true]
        exact yields_set (hslots.mono hf) hs.1 rfl hs.2
      | true =>
        rw [hmissing, Bool.true_and, Bool.not_eq_true] at hawake
        rw [hawake, Bool.not_false, Bool.and_true, if_pos rfl, presence_eq_ite, hmissing,
          if_pos rfl]
        exact yields_set (hslots.mono hf) hs.1 rfl hs.2

end Yields

/-- The tree with something put into a slot of the node at a path. -/
def putAt (g : Green) (path : List Nat) (index : Nat) (slot : Slot) : Green :=
  match path with
  | [] => g.refit index slot
  | n :: path => (g.slots[n]?.join).elim g fun c => g.refit n (some (c.putAt path index slot))

/-- An edit further down is an edit of the child that the path leads to first. -/
theorem putAt_cons {g c : Green} {n : Nat} (h : g.slots[n]? = some (some c)) (path : List Nat)
    (index : Nat) (slot : Slot) :
    g.putAt (n :: path) index slot = g.refit n (some (c.putAt path index slot)) := by
  rw [putAt, h]
  rfl

/-- The value of the new tree depends on values alone. -/
theorem value_putAt (g : Green) (path : List Nat) (index : Nat) (slot : Slot) :
    (g.putAt path index slot).value = g.value.putAt path index (slot.map value) := by
  induction path generalizing g with
  | nil => exact value_refit g index slot
  | cons n path ih =>
    have hslot : g.value.slots[n]?.join = (g.slots[n]?.join).map value := by
      rw [slots_value, values_eq, List.getElem?_map]
      rcases g.slots[n]? with _ | _ | c <;> rfl
    rw [putAt, putAt, hslot]
    cases g.slots[n]?.join with
    | none => rfl
    | some c =>
      rw [Option.elim_some, Option.map_some, Option.elim_some, value_refit, Option.map_some, ih]

end Green

namespace View

open Alloc

/-- The tree of a view with another element in the place of the view. -/
def putBack : View → Green → Green
  | root .., x => x
  | child parent index _ _, x => parent.putBack (parent.green.refit index (some x))

variable {v : View}

/-- Putting elements with the same value back gives trees with the same value. -/
theorem value_putBack_congr {x y : Green} (h : x.value = y.value) :
    (v.putBack x).value = (v.putBack y).value := by
  induction v generalizing x y with
  | root store g => exact h
  | child parent index offset g ih =>
    apply ih
    rw [Green.value_refit, Green.value_refit, Option.map_some, Option.map_some, h]

/-- Putting something into a slot below a view changes the view, and the tree around it. -/
theorem Placed.putAt_top (hv : v.Placed) (path : List Nat) (index : Nat) (slot : Slot) :
    v.top.green.putAt (v.path ++ path) index slot = v.putBack (v.green.putAt path index slot) := by
  induction v generalizing path with
  | root store g => rfl
  | child parent n offset g ih =>
    obtain ⟨hparent, hslot, -⟩ := placed_child.mp hv
    rw [View.path, List.append_assoc, List.singleton_append, top, ih hparent,
      Green.putAt_cons hslot]
    rfl

variable {e : Site}

/-- Replacing a view, if it succeeds, makes its ancestors anew. -/
theorem yields_putBack {x : Green} (hv : v.Placed) (htop : e.Knows v.top.green) (hx : e.Knows x) :
    Yields (v.replaceWith x) e
      (fun u f => f.Knows u.top.green ∧ u.top.green.value = (v.putBack x).value) True := by
  induction v generalizing e x with
  | root store g => exact .pure ⟨hx, rfl⟩
  | child parent index offset g ih =>
    obtain ⟨hparent, -, -⟩ := placed_child.mp hv
    have hknows : e.Knows parent.green := Registry.Knows.of_within htop hparent.within
    have hslot : e.KnowsAll [some x] := fun c hc =>
      Option.some.inj (List.mem_singleton.mp hc) ▸ hx
    have hremoves : ¬ parent.green.Removes (some x) := fun h => by cases h.2
    refine (Green.yields_refit hknows hslot hremoves).bind (fun h => h) fun c f hf hc => ?_
    refine (ih hparent (htop.mono hf) hc.1).bind (fun h => h) fun u f' _ hu => .pure ⟨hu.1, ?_⟩
    exact hu.2.trans (value_putBack_congr hc.2)

/-- Replacing a slot of a view, if it succeeds, gives the tree with something put there. -/
theorem yields_putAt {index : Nat} {slot : Slot} (hv : v.Placed) (htop : e.Knows v.top.green)
    (hslot : e.KnowsAll [slot]) (hremoves : ¬ v.green.Removes slot) :
    Yields (v.replaceSlot index slot) e
      (fun u f => f.Knows u.top.green ∧
        u.top.green.value = (v.top.green.putAt v.path index slot).value) True := by
  have hknows : e.Knows v.green := Registry.Knows.of_within htop hv.within
  refine (Green.yields_refit hknows hslot hremoves).bind (fun h => h) fun c f hf hc => ?_
  refine (yields_putBack hv (htop.mono hf) hc.1).mono (fun u f' _ hu => ⟨hu.1, ?_⟩) fun h => h
  have htree := hv.putAt_top [] index slot
  rw [List.append_nil] at htree
  rw [htree]
  exact hu.2.trans (value_putBack_congr hc.2)

end View

end Verbatim
