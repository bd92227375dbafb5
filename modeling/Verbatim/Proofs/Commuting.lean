import Verbatim.Proofs.Rewriting

/-!
# Edits of different places

Two edits of which neither is at or below the place of the other can be made in either order. The
place of the second is found where it was, and the trees that come out are equal by value. What
could stand in the way are placeholders above both places: an edit that makes one of them present
also fills its empty slots. But a slot is filled with the same, whether it is filled before or after
another was set, and no edit makes a placeholder out of what was present.
-/

namespace Verbatim

namespace Green

/-- A path leads to a node of a kind that has something in one of its slots, and each collection on
the way takes what it holds there. -/
inductive Opens : Green → List Nat → Nat → Kind → Slot → Prop where
  | here {g : Green} {index : Nat} {slot : Slot} (hslot : g.slots[index]? = some slot) :
      Opens g [] index g.kind slot
  | under {g c : Green} {n index : Nat} {path : List Nat} {kind : Kind} {slot : Slot}
      (hslot : g.slots[n]? = some (some c)) (htakes : g.kind.takes c.kind = true)
      (h : Opens c path index kind slot) : Opens g (n :: path) index kind slot

@[simp] theorem kind_putAt (g : Green) (path : List Nat) (index : Nat) (slot : Slot) :
    (g.putAt path index slot).kind = g.kind := by
  cases path with
  | nil => exact kind_refit g index slot
  | cons n path =>
    rw [putAt]
    cases g.slots[n]?.join with
    | none => rfl
    | some c => exact kind_refit g n _

/-- No edit makes a placeholder out of what was present. -/
theorem isMissing_of_putAt {g : Green} {path : List Nat} {index : Nat} {slot : Slot}
    (h : (g.putAt path index slot).isMissing = true) : g.isMissing = true := by
  have hrefit {n : Nat} {s : Slot} (h : (g.refit n s).isMissing = true) : g.isMissing = true := by
    rw [isMissing_refit, dormant, Bool.and_eq_true, Bool.and_eq_true] at h
    exact h.1.1
  cases path with
  | nil => exact hrefit h
  | cons n path =>
    rw [putAt] at h
    cases hslot : g.slots[n]?.join with
    | none => rwa [hslot] at h
    | some c =>
      rw [hslot] at h
      exact hrefit h

namespace Opens

variable {g : Green} {p q : List Nat} {i j : Nat} {k l : Kind} {old slot : Slot}

/-- The same place is found in every tree of the same value. -/
theorem of_value_eq {g' : Green} (h : g.Opens p i k slot) (hvalue : g.value = g'.value) :
    ∃ slot', g'.Opens p i k slot' ∧ slot'.elim 0 width = slot.elim 0 width := by
  have hslots {g g' : Green} {n : Nat} {slot : Slot} (hvalue : g.value = g'.value)
      (hslot : g.slots[n]? = some slot) :
      ∃ slot', g'.slots[n]? = some slot' ∧ slot'.map value = slot.map value := by
    have hvalues : (g'.slots.map (Option.map value))[n]? = some (slot.map value) := by
      rw [← values_eq, ← slots_value, ← hvalue, slots_value, values_eq, List.getElem?_map, hslot]
      rfl
    rwa [List.getElem?_map, Option.map_eq_some_iff] at hvalues
  have hkinds {g g' : Green} (hvalue : g.value = g'.value) : g.kind = g'.kind := by
    rw [← kind_value, hvalue, kind_value]
  induction h generalizing g' with
  | here hslot =>
    obtain ⟨slot', hslot', heq⟩ := hslots hvalue hslot
    rw [hkinds hvalue]
    refine ⟨slot', .here hslot', ?_⟩
    have hread (s : Slot) : s.elim 0 width = (s.map value).elim 0 width := by
      cases s <;> simp
    rw [hread, heq, ← hread]
  | under hslot htakes _ ih =>
    obtain ⟨slot', hslot', heq⟩ := hslots hvalue hslot
    obtain ⟨c', rfl, hc'⟩ := Option.map_eq_some_iff.mp heq
    obtain ⟨found, hfound, hwidth⟩ := ih hc'.symm
    refine ⟨found, .under hslot' ?_ hfound, hwidth⟩
    rwa [← hkinds hvalue, hkinds hc']

/-- Putting something into another slot of the node leaves a place as it was, but for
placeholders. -/
theorem refit (h : g.Opens q j l slot) {n : Nat} (hne : (q ++ [j]).head? ≠ some n) (x : Slot) :
    ∃ slot', (g.refit n x).Opens q j l slot' ∧ slot'.elim 0 width = slot.elim 0 width := by
  cases h with
  | here hslot =>
    have hj : j ≠ n := fun heq => hne (congrArg some heq)
    rw [← kind_refit g n x]
    rcases g.getElem?_slots_refit_of_ne n x hj with hkept | hfilled
    · exact ⟨slot, .here (hkept.trans hslot), rfl⟩
    · refine ⟨g.given j slot, .here ?_, width_fillEmpty _ slot⟩
      rw [hfilled, hslot]
      rfl
  | @under _ c m _ _ _ _ hslot htakes h =>
    have hm : m ≠ n := fun heq => hne (congrArg some heq)
    refine ⟨slot, .under (g.getElem?_slots_refit_of_some n x hm hslot) ?_ h, rfl⟩
    rwa [kind_refit]

/-- An edit changes the node at the top in one slot, whatever is put into the others. -/
theorem exists_refit (h : g.Opens p i k old) (slot : Slot) :
    ∃ n x, (p ++ [i]).head? = some n ∧ g.putAt p i slot = g.refit n x ∧
      ∀ m y, m ≠ n → (g.refit m y).putAt p i slot = (g.refit m y).refit n x := by
  cases h with
  | here hslot => exact ⟨i, slot, rfl, rfl, fun m y _ => rfl⟩
  | @under _ c n _ path _ _ hslot _ _ =>
    refine ⟨n, some (c.putAt path i slot), rfl, putAt_cons hslot path i slot, fun m y hm => ?_⟩
    exact putAt_cons (g.getElem?_slots_refit_of_some m y hm.symm hslot) path i slot

/-- Of two places, neither of which is at or below the other, the ways lead through the same slots
until they part. -/
@[elab_as_elim]
theorem apart_induction {P : Green → List Nat → List Nat → Prop}
    (parts : ∀ g p q, g.Opens p i k old → g.Opens q j l slot →
      (p ++ [i]).head? ≠ (q ++ [j]).head? → P g p q)
    (through : ∀ g c n p q, g.slots[n]? = some (some c) → g.kind.takes c.kind = true →
      P c p q → P g (n :: p) (n :: q))
    (hp : g.Opens p i k old) (hq : g.Opens q j l slot) (hpq : ¬ p ++ [i] <+: q ++ [j])
    (hqp : ¬ q ++ [j] <+: p ++ [i]) : P g p q := by
  by_cases hhead : (p ++ [i]).head? = (q ++ [j]).head?
  · induction hp generalizing q with
    | here _ =>
      refine absurd ?_ hpq
      cases q <;> simp_all
    | @under g c n i p _ _ hslot htakes hp ih =>
      cases hq with
      | here _ => exact absurd (by simp_all) hqp
      | @under _ d m _ q _ _ hslot' _ hq =>
        obtain rfl : n = m := Option.some.inj hhead
        obtain rfl : c = d := by simpa [hslot] using hslot'
        apply through g c n p q hslot htakes
        have hpq : ¬ p ++ [i] <+: q ++ [j] := fun h => hpq (List.cons_prefix_cons.mpr ⟨rfl, h⟩)
        have hqp : ¬ q ++ [j] <+: p ++ [i] := fun h => hqp (List.cons_prefix_cons.mpr ⟨rfl, h⟩)
        by_cases hhead : (p ++ [i]).head? = (q ++ [j]).head?
        · exact ih parts hq hpq hqp hhead
        · exact parts c p q hp hq hhead
  · exact parts g p q hp hq hhead

variable (hp : g.Opens p i k old) (hq : g.Opens q j l slot) (hpq : ¬ p ++ [i] <+: q ++ [j])
  (hqp : ¬ q ++ [j] <+: p ++ [i])

include hp hq hpq hqp

/-- An edit leaves another place as it was, but for placeholders. -/
theorem putAt (a : Slot) :
    ∃ slot', (g.putAt p i a).Opens q j l slot' ∧ slot'.elim 0 width = slot.elim 0 width := by
  refine apart_induction ?parts ?through hp hq hpq hqp
  case parts =>
    intro g p q hp hq hne
    obtain ⟨n, x, hhead, hputAt, -⟩ := hp.exists_refit a
    rw [hputAt]
    exact hq.refit (hhead ▸ hne.symm) x
  case through =>
    intro g c n p q hslot htakes ih
    obtain ⟨slot', hopens, hwidth⟩ := ih
    refine ⟨slot', ?_, hwidth⟩
    rw [putAt_cons hslot]
    refine .under (getElem?_slots_refit_self g n _ ?_) ?_ hopens
    · exact (List.getElem?_eq_some_iff.mp hslot).1
    · rwa [kind_refit, kind_putAt]

/-- Edits of different places can be made in either order. -/
theorem putAt_comm (a b : Slot) : (g.putAt p i a).putAt q j b = (g.putAt q j b).putAt p i a := by
  refine apart_induction ?parts ?through hp hq hpq hqp
  case parts =>
    intro g p q hp hq hne
    obtain ⟨n, x, hn, hfirst, hsecond⟩ := hp.exists_refit a
    obtain ⟨m, y, hm, hfirst', hsecond'⟩ := hq.exists_refit b
    have hnm : n ≠ m := fun heq => hne (by rw [hn, hm, heq])
    calc (g.putAt p i a).putAt q j b
        = (g.refit n x).refit m y := by rw [hfirst, hsecond' n x hnm]
      _ = (g.refit m y).refit n x := refit_comm x hnm y
      _ = (g.putAt q j b).putAt p i a := by rw [hfirst', hsecond m y hnm.symm]
  case through =>
    intro g c n p q hslot _ ih
    have hlt : n < g.slots.length := (List.getElem?_eq_some_iff.mp hslot).1
    have htwice (c₁ : Green) (path : List Nat) (index : Nat) (s : Slot) :
        (g.refit n (some c₁)).putAt (n :: path) index s =
          g.refit n (some (c₁.putAt path index s)) := by
      rw [putAt_cons (getElem?_slots_refit_self g n _ hlt)]
      exact refit_refit_self isMissing_of_putAt
    calc (g.putAt (n :: p) i a).putAt (n :: q) j b
        = g.refit n (some ((c.putAt p i a).putAt q j b)) := by rw [putAt_cons hslot, htwice]
      _ = g.refit n (some ((c.putAt q j b).putAt p i a)) := by rw [ih]
      _ = (g.putAt (n :: q) j b).putAt (n :: p) i a := by rw [putAt_cons hslot, htwice]

end Opens

end Green

namespace View

open Green

variable {v : View} {path : List Nat} {index : Nat} {kind : Kind} {slot old : Slot}

/-- Where a view stands, the way to it is open if each collection above takes what it holds. -/
theorem Placed.opens (hv : v.Placed) (haccepts : v.accepts v.kind = true)
    (h : v.green.Opens path index kind slot) :
    v.top.green.Opens (v.path ++ path) index kind slot := by
  induction v generalizing path with
  | root store g => exact h
  | child parent n offset g ih =>
    obtain ⟨hparent, hslot, -⟩ := placed_child.mp hv
    obtain ⟨htakes, haccepts⟩ := (Bool.and_eq_true ..).mp haccepts
    rw [View.path, List.append_assoc, List.singleton_append, top]
    exact ih hparent haccepts (.under hslot htakes h)

theorem slot?_of_getElem? {n : Nat} {c : Green} (h : v.green.slots[n]? = some (some c)) :
    v.slot? n = some (.child v n (v.offset + slotsWidth (v.green.slots.take n)) c) := by
  rw [slot?_eq, h]
  rfl

/-- An open way leads to a view above which each collection takes what it holds. -/
theorem exists_descend?_of_opens (haccepts : v.accepts v.kind = true)
    (h : v.green.Opens path index kind slot) :
    ∃ u, v.descend? path = some u ∧ u.accepts u.kind = true ∧ u.kind = kind ∧
      u.green.slots[index]? = some slot := by
  induction path generalizing v with
  | nil =>
    cases h with
    | here hslot => exact ⟨v, rfl, haccepts, rfl, hslot⟩
  | cons n path ih =>
    cases h with
    | @under _ c _ _ _ _ _ hslot htakes h =>
      rw [descend?, slot?_of_getElem? hslot]
      exact ih ((Bool.and_eq_true ..).mpr ⟨htakes, haccepts⟩) h

theorem slotStart_succ (h : v.green.slots[index]? = some old) :
    v.slotStart (index + 1) = v.slotStart index + old.elim 0 Green.width := by
  rw [slotStart, slotStart, List.take_add_one, h, slotsWidth, sumOf_append, Nat.add_assoc]
  rfl

/-- A slot can only be replaced if there is one. -/
theorem lt_slotCount_of_replaceSlot {s : Store} {u : View}
    (h : (v.replaceSlot index slot s).1 = .ok u) : index < v.slotCount := by
  by_cases hindex : index < v.slotCount
  · exact hindex
  · have hfault : v.green.replaceSlot index slot s =
        (.error (.slotOutOfRange index v.green.kind v.green.slots.length), s) := by
      rw [slotCount] at hindex
      rw [Green.replaceSlot, if_neg hindex]
      rfl
    rw [replaceSlot, Alloc.bind_eq_of_error hfault] at h
    cases h

section Width

variable {e : Site} (hv : v.Placed) (htop : e.Knows v.top.green) (hslot : e.KnowsAll [slot])
  (hold : v.green.slots[index]? = some old)

include hv htop hold

/-- What is in a slot is a part of the whole tree. -/
theorem Placed.slotStart_succ_le : v.slotStart (index + 1) ≤ v.top.width := by
  have hindex : index < v.slotCount := (List.getElem?_eq_some_iff.mp hold).1
  obtain ⟨part, hpart⟩ := exists_part_slot hv htop hindex
  have hwidth : v.top.width = Text.byteLength v.top.text.toList := Registry.Knows.width_eq htop
  have hoffset := hv.offset_eq htop
  have hstart := hpart.start_eq
  have hstop := hpart.stop_eq
  rw [hpart.toList_text_top hv] at hwidth
  simp only [Text.byteLength_append] at hwidth
  omega

include hslot

/-- Just when a slot can be replaced, by how wide the tree gets. -/
theorem replaceSlot_ok_iff_width :
    (∃ u, (v.replaceSlot index slot e.store).1 = .ok u) ↔
      (v.green.accepts slot && v.accepts v.kind) = true ∧
        v.top.width + slot.elim 0 Green.width < Width.limit + old.elim 0 Green.width := by
  have hindex : index < v.slotCount := (List.getElem?_eq_some_iff.mp hold).1
  have hle := hv.slotStart_succ_le htop hold
  have hsucc := slotStart_succ hold
  rw [replaceSlot_ok_iff hv htop hslot hindex]
  refine and_congr_right fun _ => ?_
  omega

/-- How wide a tree gets when a slot is replaced. -/
theorem width_top_of_replaceSlot {u : View} (hu : (v.replaceSlot index slot e.store).1 = .ok u) :
    u.top.width + old.elim 0 Green.width = v.top.width + slot.elim 0 Green.width := by
  have hindex : index < v.slotCount := (List.getElem?_eq_some_iff.mp hold).1
  obtain ⟨f, ⟨hknows, c, hc, hreplaced⟩, -⟩ := (yields_replaceSlot hv htop hslot hindex).of_ok hu
  obtain ⟨part, hpart⟩ := exists_part_slot hv htop hindex
  have hle := hv.slotStart_succ_le htop hold
  have hsucc := slotStart_succ hold
  have hchars : Text.byteLength (charsOf [slot]) = slot.elim 0 Green.width :=
    (Registry.KnowsAll.slotsWidth_eq hslot).symm
  have hwidth : u.top.width = Text.byteLength (v.charsWith c.text.toList) := by
    rw [← hreplaced.text_eq]
    exact Registry.Knows.width_eq hknows
  rw [hc.toList_text, Green.charsWith, hpart.byteLength_charsWith hv htop, hchars] at hwidth
  omega

end Width

theorem exists_top_eq (v : View) : ∃ tag, v.top = .root tag v.top.green := by
  induction v with
  | root store g => exact ⟨store, rfl⟩
  | child parent n offset g ih => exact ih

/-- An edit that succeeds: the way to its place is open, and what is put there is taken. -/
theorem exists_first {e : Site} {tag : Nat} {g : Green} {u : View}
    (hv : (View.root tag g).descend? path = some v) (hknows : e.Knows g) (hslot : e.KnowsAll [slot])
    (hremoves : ¬ v.green.Removes slot) (hu : (v.replaceSlot index slot e.store).1 = .ok u) :
    ∃ old, g.Opens path index v.kind old ∧ v.green.accepts slot = true ∧
      u.top.green.value = (g.putAt path index slot).value ∧
      u.top.width + old.elim 0 Green.width = g.width + slot.elim 0 Green.width := by
  have hindex : index < v.green.slots.length := lt_slotCount_of_replaceSlot hu
  have hold : v.green.slots[index]? = some v.green.slots[index] := List.getElem?_eq_getElem hindex
  obtain ⟨hplaced, htop, hpath⟩ := Placed.of_descend? (v := .root tag g) trivial hv
  have hpath : v.path = path := hpath
  have hknows : e.Knows v.top.green := by
    rw [htop]
    exact hknows
  obtain ⟨haccepts, haccepted⟩ :=
    (Bool.and_eq_true ..).mp ((replaceSlot_ok_iff_width hplaced hknows hslot hold).mp ⟨u, hu⟩).1
  refine ⟨v.green.slots[index], ?opens, haccepts, ?value_eq, ?width_eq⟩
  case opens =>
    have hopens := hplaced.opens haccepted (.here hold)
    rwa [htop, hpath, List.append_nil] at hopens
  case value_eq =>
    obtain ⟨f, -, hvalue⟩ := (yields_putAt hplaced hknows hslot hremoves).of_ok hu
    rwa [htop, hpath] at hvalue
  case width_eq =>
    have hwidth := width_top_of_replaceSlot hplaced hknows hslot hold hu
    rwa [htop] at hwidth

/-- The second of two edits of different places: its place is found where it was, and it can be made
just if the tree does not get too wide. -/
theorem exists_second {g : Green} {p q : List Nat} {i j : Nat} {k l : Kind} {oldp oldq : Slot}
    {u : View} {b : Slot} (hp : g.Opens p i k oldp) (hq : g.Opens q j l oldq)
    (hpq : ¬ p ++ [i] <+: q ++ [j]) (hqp : ¬ q ++ [j] <+: p ++ [i]) {a : Slot}
    (hu : u.top.green.value = (g.putAt p i a).value)
    (haccepts : (b.all fun x => l.takes x.kind) = true)
    (hremoves : ¬ (l.isCollection = true ∧ b = none)) :
    ∃ x, u.top.descend? q = some x ∧
      ∀ e : Site, e.Knows u.top.green → e.KnowsAll [b] →
        ((∃ z, (x.replaceSlot j b e.store).1 = .ok z) ↔
          u.top.width + b.elim 0 Green.width < Width.limit + oldq.elim 0 Green.width) ∧
        ∀ z, (x.replaceSlot j b e.store).1 = .ok z →
          z.top.green.value = ((g.putAt p i a).putAt q j b).value := by
  obtain ⟨kept, hkept, hkeptWidth⟩ := hp.putAt hq hpq hqp a
  obtain ⟨found, hfound, hwidth⟩ := hkept.of_value_eq hu.symm
  rw [hkeptWidth] at hwidth
  obtain ⟨tag, htag⟩ := u.exists_top_eq
  have hroot : u.top.accepts u.top.kind = true := by
    rw [htag]
    rfl
  obtain ⟨x, hx, hxaccepts, rfl, hslot⟩ := exists_descend?_of_opens hroot hfound
  have hplaced : x.Placed ∧ x.top = u.top ∧ x.path = q := by
    rw [htag] at hx ⊢
    exact Placed.of_descend? (v := .root tag u.top.green) trivial hx
  obtain ⟨hplaced, htop, hpath⟩ := hplaced
  refine ⟨x, hx, fun e hknows hb => ⟨?_, fun z hz => ?_⟩⟩
  · rw [← htop] at hknows ⊢
    have hboth : (x.green.accepts b && x.accepts x.kind) = true := by
      rw [Bool.and_eq_true]
      exact ⟨haccepts, hxaccepts⟩
    rw [replaceSlot_ok_iff_width hplaced hknows hb hslot, hwidth, and_iff_right hboth]
  · rw [← htop] at hknows
    obtain ⟨f, -, hvalue⟩ := (yields_putAt hplaced hknows hb hremoves).of_ok hz
    rw [hvalue, htop, hpath, value_putAt, hu, ← value_putAt]

end View

namespace Workspace

/-- In a workspace that can be reached, with one of its stores, a tree is in use and so is what is
to be put into it. -/
structure Offers (w : Workspace) (s : Store) (g : Green) (slot : Slot) : Prop where
  reachable : w.Reachable
  mem_stores : s ∈ w.stores
  live_tree : w.Live g
  live_slot : ∀ x, slot = some x → w.Live x

/-- What a workspace offers is known at some site of the store. -/
theorem Offers.exists_site {w : Workspace} {s : Store} {g : Green} {slot : Slot}
    (h : w.Offers s g slot) : ∃ e : Site, e.store = s ∧ e.Knows g ∧ e.KnowsAll [slot] := by
  obtain ⟨r, hr⟩ := h.reachable.exists_sound
  refine ⟨hr.site h.mem_stores, rfl, hr.knows h.live_tree, fun c hc => ?_⟩
  exact hr.knows (h.live_slot c (List.mem_singleton.mp hc).symm)

variable {w w' w₁ w₂ : Workspace} {s s' s₁ s₂ : Store} {tag : Nat} {g : Green} {p q : List Nat}
  {i j : Nat} {v x u u' : View} {a b : Slot}

/-- Two edits can be made in either order if neither is at or below the place of the other and
neither takes a member out of a collection. After one of them the place of the other is found where
it was, also if placeholders above it were made present. The second edit can be made there just if
the tree does not get too wide, which does not depend on the order, and the trees that come out are
equal by value. -/
theorem disjoint_edits_commute (hv : (View.root tag g).descend? p = some v)
    (hx : (View.root tag g).descend? q = some x) (hpq : ¬ p ++ [i] <+: q ++ [j])
    (hqp : ¬ q ++ [j] <+: p ++ [i]) (ha : ¬ v.green.Removes a) (hb : ¬ x.green.Removes b)
    (h : w.Offers s g a) (hu : (v.replaceSlot i a s).1 = .ok u)
    (h' : w'.Offers s' g b) (hu' : (x.replaceSlot j b s').1 = .ok u')
    (h₁ : w₁.Offers s₁ u.top.green b) (h₂ : w₂.Offers s₂ u'.top.green a) :
    ∃ x' v', u.top.descend? q = some x' ∧ u'.top.descend? p = some v' ∧
      ((∃ z, (x'.replaceSlot j b s₁).1 = .ok z) ↔
        u.top.width + u'.top.width < Width.limit + g.width) ∧
      ((∃ z', (v'.replaceSlot i a s₂).1 = .ok z') ↔
        u.top.width + u'.top.width < Width.limit + g.width) ∧
      ∀ z z', (x'.replaceSlot j b s₁).1 = .ok z → (v'.replaceSlot i a s₂).1 = .ok z' →
        z.top.green.value = z'.top.green.value ∧ z.top.green.sameValue z'.top.green = true := by
  obtain ⟨e, rfl, hg, hslot⟩ := h.exists_site
  obtain ⟨e', rfl, hg', hslot'⟩ := h'.exists_site
  obtain ⟨oldp, hp, htakes, hvalue, hwidth⟩ := View.exists_first hv hg hslot ha hu
  obtain ⟨oldq, hq, htakes', hvalue', hwidth'⟩ := View.exists_first hx hg' hslot' hb hu'
  obtain ⟨x', hx', hsecond⟩ := View.exists_second hp hq hpq hqp hvalue htakes' hb
  obtain ⟨v', hv', hsecond'⟩ := View.exists_second hq hp hqp hpq hvalue' htakes ha
  obtain ⟨e₁, rfl, hknows₁, hslot₁⟩ := h₁.exists_site
  obtain ⟨e₂, rfl, hknows₂, hslot₂⟩ := h₂.exists_site
  obtain ⟨hok, hresult⟩ := hsecond e₁ hknows₁ hslot₁
  obtain ⟨hok', hresult'⟩ := hsecond' e₂ hknows₂ hslot₂
  refine ⟨x', v', hx', hv', hok.trans ?_, hok'.trans ?_, fun z z' hz hz' => ?_⟩
  · omega
  · omega
  · have heq : z.top.green.value = z'.top.green.value := by
      rw [hresult z hz, hresult' z' hz', hp.putAt_comm hq hpq hqp a b]
    exact ⟨heq, Green.sameValue_of_value_eq heq⟩

open Scene

/-- The tree of `let x` with a placeholder for the type. -/
def untyped : Green :=
  branch 4 .letDecl [some (spaced 0 .letKw "let "), some (word 1 .ident "x"),
    some (hole 3 .typeAscription), none]

/-- In `let x` a placeholder for the type gets a colon, which makes it present, and a placeholder
for the name of the type, which does not. -/
theorem disjoint_edits_commute_ascription :
    ∃ (w w₁ w₂ : Workspace) (s s₁ s₂ : Store) (g t : Green) (v u u' x' v' z z' : View),
      g.text = "let x" ∧ (View.root 0 g).descend? [2] = some v ∧ v.isMissing = true ∧
        t.text = ":" ∧ w.Offers s g (some t) ∧ (v.replaceSlot 0 (some t) s).1 = .ok u ∧
        u.isMissing = false ∧ w.Offers s g none ∧ (v.replaceSlot 1 none s).1 = .ok u' ∧
        u'.isMissing = true ∧ w₁.Offers s₁ u.top.green none ∧
        w₂.Offers s₂ u'.top.green (some t) ∧ u.top.descend? [2] = some x' ∧
        u'.top.descend? [2] = some v' ∧ (x'.replaceSlot 1 none s₁).1 = .ok z ∧
        (v'.replaceSlot 0 (some t) s₂).1 = .ok z' ∧
        z.top.green.value = z'.top.green.value ∧ z.top.green.sameValue z'.top.green = true := by
  let c := ofTrees [untyped, word 2 .colon ":"]
  have hw : c.workspace.Reachable := reachable_ofTrees rfl
  let v : View := .child (.root 0 untyped) 2 5 (hole 3 .typeAscription)
  have hv : (View.root 0 untyped).descend? [2] = some v := rfl
  obtain ⟨u, s₁, hu, hpresent, hwidth⟩ : ∃ u s, v.replaceSlot 0 (some (word 2 .colon ":")) c.store =
      (.ok u, s) ∧ u.isMissing = false ∧ u.top.width = 6 := ⟨_, _, rfl, rfl, rfl⟩
  obtain ⟨u', s₂, hu', hmissing, hwidth'⟩ : ∃ u s, v.replaceSlot 1 none c.store = (.ok u, s) ∧
      u.isMissing = true ∧ u.top.width = 5 := ⟨_, _, rfl, rfl, rfl⟩
  have hw₁ := reachable_of_ok hw (.replaceChild v 0 (some (word 2 .colon ":")))
    (inUse_of_found rfl) (Alloc.map_eq_of_ok hu)
  have hw₂ := reachable_of_ok hw (.replaceChild v 1 none) (inUse_of_found rfl)
    (Alloc.map_eq_of_ok hu')
  have hnone {w : Workspace} (y : Green) (hy : (none : Slot) = some y) : w.Live y := by cases hy
  have hg : c.workspace.Live untyped := live_of_found rfl
  have hoffers : c.workspace.Offers c.store untyped (some (word 2 .colon ":")) :=
    ⟨hw, c.store_mem, hg, fun y hy => Option.some.inj hy ▸ live_of_found rfl⟩
  have hoffers' : c.workspace.Offers c.store untyped none := ⟨hw, c.store_mem, hg, hnone⟩
  have hoffers₁ : Workspace.Offers _ _ u.top.green none :=
    ⟨hw₁, store_mem _, live_top .., hnone⟩
  have hoffers₂ : Workspace.Offers _ _ u'.top.green (some (word 2 .colon ":")) :=
    ⟨hw₂, store_mem _, live_top ..,
      fun y hy => Option.some.inj hy ▸ live_of_found rfl⟩
  obtain ⟨x', v', hx', hv', hok, hok', hsame⟩ :=
    disjoint_edits_commute (i := 0) (j := 1) hv hv (by decide) (by decide) (by decide) (by decide)
      hoffers (congrArg Prod.fst hu) hoffers' (congrArg Prod.fst hu') hoffers₁ hoffers₂
  have hfits : u.top.width + u'.top.width < Width.limit + untyped.width := by
    rw [hwidth, hwidth']
    decide
  obtain ⟨z, hz⟩ := hok.mpr hfits
  obtain ⟨z', hz'⟩ := hok'.mpr hfits
  have htext : untyped.text = "let x" ∧ (word 2 .colon ":").text = ":" :=
    ⟨Green.text_eq_join _, Green.text_eq_join _⟩
  exact ⟨_, _, _, c.store, _, _, untyped, word 2 .colon ":", v, u, u', x', v', z, z', htext.1, hv,
    rfl, htext.2, hoffers, congrArg Prod.fst hu, hpresent, hoffers', congrArg Prod.fst hu',
    hmissing, hoffers₁, hoffers₂, hx', hv', hz, hz', hsame z z' hz hz'⟩

end Workspace

end Verbatim
