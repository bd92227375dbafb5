import Verbatim.Collection
import Verbatim.Proofs.Editing
import Verbatim.Proofs.Legality

/-!
# Edits keep trees valid

An edit puts an element in the place of another, or changes the slots of a node. If the tree is
valid and what is put in is valid and permitted there, then the new tree is valid. Such an edit
fails just if the new tree gets too wide. So a tree stays valid however often it is edited.
-/

namespace Verbatim

/-- What can be done at a place in a tree. -/
inductive Edit where
  /-- Another element is put there. -/
  | replaceWith (x : Green)
  /-- A slot of the node gets something else, or is emptied. -/
  | replaceSlot (index : Nat) (slot : Slot)
  /-- A collection gets one more member at its end. -/
  | append (x : Green)
  /-- A collection gets one more member at its start. -/
  | prepend (x : Green)
  /-- A collection gets one more member at an index. -/
  | insert (index : Nat) (x : Green)
  /-- A collection loses a member. -/
  | remove (index : Nat)
  /-- A member of a collection gives way to another. -/
  | replace (index : Nat) (x : Green)

namespace View

/-- Whether an element of a kind may be put in the place of a view. -/
def permits : View → Kind → Bool
  | root .., _ => true
  | child parent index _ _, kind => parent.kind.permits index kind

end View

namespace Edit

/-- Makes an edit; gives the edited view in its new tree. -/
def apply (v : View) : Edit → Alloc View
  | replaceWith x => v.replaceWith x
  | replaceSlot index slot => v.replaceSlot index slot
  | append x => Collection.view <$> Collection.appending ⟨v⟩ x
  | prepend x => Collection.view <$> Collection.prepending ⟨v⟩ x
  | insert index x => Collection.view <$> Collection.inserting ⟨v⟩ index x
  | remove index => Collection.view <$> Collection.removing ⟨v⟩ index
  | replace index x => Collection.view <$> Collection.replacing ⟨v⟩ index x

/-- What an edit puts in. -/
def given : Edit → Slot
  | replaceSlot _ slot => slot
  | remove _ => none
  | replaceWith x | append x | prepend x | insert _ x | replace _ x => some x

/-- The bytes of the tree that give way to what is put in. -/
def bounds (v : View) : Edit → Nat × Nat
  | replaceWith _ => (v.offset, v.offset + v.width)
  | replaceSlot index _ | remove index | replace index _ =>
    (v.slotStart index, v.slotStart (index + 1))
  | append _ => (v.slotStart v.slotCount, v.slotStart v.slotCount)
  | prepend _ => (v.slotStart 0, v.slotStart 0)
  | insert index _ => (v.slotStart index, v.slotStart index)

/-- How wide a tree gets by an edit. -/
def widthAfter (v : View) (e : Edit) : Nat :=
  (e.bounds v).1 + e.given.elim 0 Green.width + (v.top.width - (e.bounds v).2)

/-- Whether what an edit puts in is permitted in the place that it goes to. Members are put into and
taken out of collections only. -/
def Permitted (v : View) : Edit → Prop
  | replaceWith x => v.permits x.kind = true
  | replaceSlot index slot =>
    index < v.slotCount ∧ ∀ x, slot = some x → v.kind.permits index x.kind = true
  | append x | prepend x => v.isNode = true ∧ (Collection.mk v).memberKinds.contains x.kind = true
  | insert index x =>
    v.isNode = true ∧ index ≤ v.slotCount ∧ (Collection.mk v).memberKinds.contains x.kind = true
  | remove index => v.kind.isCollection = true ∧ index < v.slotCount
  | replace index x =>
    index < v.slotCount ∧ (Collection.mk v).memberKinds.contains x.kind = true

end Edit

open Alloc

variable {s : Site} {v : View} {x : Green}

namespace View

/-- In a tree of genuine elements a view shows one, and so do its ancestors. -/
theorem Placed.genuine (hv : v.Placed) (htop : v.top.green.Genuine) : v.Genuine := by
  induction v with
  | root store g => exact genuine_root.mpr htop
  | child parent index offset g ih =>
    exact genuine_child.mpr ⟨htop.of_within hv.within, ih (placed_child.mp hv).1 htop⟩

theorem Genuine.top (hv : v.Genuine) : v.top.green.Genuine := by
  induction v with
  | root store g => exact genuine_root.mp hv
  | child parent index offset g ih => exact ih (genuine_child.mp hv).2

/-- What stands in a legal tree is permitted in its place. -/
theorem permits_self (hv : v.Placed) (htop : v.top.green.Legal) : v.permits v.kind = true := by
  cases v with
  | root store g => rfl
  | child parent index offset g =>
    obtain ⟨hparent, hslot, -⟩ := placed_child.mp hv
    exact (htop.of_within hparent.within).permits hslot

/-- A collection takes what is permitted in it. -/
theorem takes_of_permits {k member : Kind} {index : Nat} (h : k.permits index member = true) :
    k.takes member = true := by
  unfold Kind.permits at h
  unfold Kind.takes
  cases hlayout : k.layout with
  | token => rfl
  | fixed specs => rfl
  | collection members =>
    rw [hlayout] at h
    exact h

/-- In a legal tree all collections above a view take what is permitted in its place. -/
theorem accepts_of_permits (hv : v.Placed) (htop : v.top.green.Legal) {kind : Kind}
    (h : v.permits kind = true) : v.accepts kind = true := by
  induction v generalizing kind with
  | root store g => rfl
  | child parent index offset g ih =>
    have hparent := (placed_child.mp hv).1
    rw [accepts, takes_of_permits h, ih hparent htop (permits_self hparent htop)]
    rfl

/-- Something legal is put where it is permitted, and all ancestors are made anew. Their kinds do
not change, so each new ancestor is permitted where the old one stood. -/
theorem yields_legalReplaceWith (hv : v.Placed) (htop : s.Holds v.top.green) (hx : s.Holds x)
    (hpermits : v.permits x.kind = true) :
    Yields (v.replaceWith x) s (fun u f => f.Holds u.top.green) True := by
  induction v generalizing s x with
  | root store g => exact .pure hx
  | child parent index offset g ih =>
    have hparent := (placed_child.mp hv).1
    refine (Green.yields_legalReplaceSlot (htop.of_within hparent.within)
      (Site.holdsAll_some hx) ?_).bind (fun _ => trivial) fun c f hf hout => ?_
    · rintro _ ⟨rfl⟩
      exact hpermits
    · obtain ⟨hc, hkind⟩ := hout
      have hself : parent.permits c.kind = true := hkind ▸ permits_self hparent htop.legal
      exact (ih hparent (htop.mono hf) hc hself).bind (fun _ => trivial) fun u f' _ hu => .pure hu

theorem yields_legalReplaceSlot {index : Nat} {slot : Slot} (hv : v.Placed)
    (htop : s.Holds v.top.green) (hslot : s.HoldsAll [slot])
    (hpermits : ∀ x, slot = some x → v.kind.permits index x.kind = true) :
    Yields (v.replaceSlot index slot) s (fun u f => f.Holds u.top.green) True := by
  refine (Green.yields_legalReplaceSlot (htop.of_within hv.within) hslot hpermits).bind
    (fun _ => trivial) fun c f hf hout => ?_
  obtain ⟨hc, hkind⟩ := hout
  exact yields_legalReplaceWith hv (htop.mono hf) hc (hkind ▸ permits_self hv htop.legal)

/-- What stands in the slots from one to another is a part of a view. -/
theorem exists_part_slots {r : Registry} {start stop : Nat} (htop : r.Knows v.green)
    (hnode : v.isNode = true) (hle : start ≤ stop) :
    ∃ old, v.Part (Green.charsOf (v.green.slots.take start)) old
      (Green.charsOf (v.green.slots.drop stop)) (v.slotStart start) (v.slotStart stop) := by
  have htake (n : Nat) : Green.slotsWidth (v.green.slots.take n) =
      Text.byteLength (Green.charsOf (v.green.slots.take n)) :=
    Registry.KnowsAll.slotsWidth_eq fun c hc => htop.knowsAll_slots c (List.mem_of_mem_take hc)
  obtain ⟨between, hbetween⟩ : ∃ between,
      v.green.slots.take stop = v.green.slots.take start ++ between := by
    refine ⟨(v.green.slots.take stop).drop start, ?_⟩
    have hstart := List.take_append_drop start (v.green.slots.take stop)
    rw [List.take_take, Nat.min_eq_left hle] at hstart
    exact hstart.symm
  refine ⟨Green.charsOf between, ?_, ?_, ?_⟩
  · rw [text, Green.toList_text_of_slots hnode, ← List.append_assoc, ← Green.charsOf_append,
      ← hbetween, ← Green.charsOf_append, List.take_append_drop]
  · rw [slotStart, htake]
  · rw [slotStart, slotStart, htake, htake, hbetween, Green.charsOf_append, Text.byteLength_append,
      Nat.add_assoc]

end View

namespace Collection

variable {start stop : Nat} {slot : Slot} {members : KindSet}

theorem exists_members_of_memberKinds {kind : Kind}
    (h : (Collection.mk v).memberKinds.contains kind = true) :
    ∃ members, v.kind.layout = .collection members ∧ members.contains kind = true := by
  unfold memberKinds at h
  cases hlayout : v.kind.layout with
  | token => simp [hlayout, Layout.members?] at h
  | fixed specs => simp [hlayout, Layout.members?] at h
  | collection members =>
    rw [hlayout] at h
    exact ⟨members, rfl, h⟩

theorem exists_members_of_isCollection {kind : Kind} (h : kind.isCollection = true) :
    ∃ members, kind.layout = .collection members := by
  rw [← Kind.isSome_members?_layout] at h
  cases hlayout : kind.layout with
  | token => simp [hlayout, Layout.members?] at h
  | fixed specs => simp [hlayout, Layout.members?] at h
  | collection members => exact ⟨members, rfl⟩

/-- Members are replaced in the collection, which is then put in its place. -/
theorem view_splice (v : View) (start stop : Nat) (slot : Slot) :
    view <$> splice ⟨v⟩ start stop slot =
      v.green.spliceSlots start stop (slot.toList.map some) >>= v.replaceWith := by
  simp [splice]

section

variable (hv : v.Placed) (htop : s.Holds v.top.green) (hnode : v.isNode = true)
  (hlayout : v.kind.layout = .collection members) (hslot : s.HoldsAll [slot])
  (hmember : ∀ x, slot = some x → members.contains x.kind = true)

include hmember in
theorem all_toList : ((slot.toList.map some).all fun slot =>
    slot.any fun c => members.contains c.kind) = true := by
  cases slot with
  | none => rfl
  | some x => simpa using hmember x rfl

include hslot in
theorem holdsAll_toList : s.HoldsAll (slot.toList.map some) := by
  cases slot with
  | none => exact fun c hc => by cases hc
  | some x => exact hslot

include hv htop hnode hlayout hslot hmember

/-- Members of a collection in a legal tree are replaced by one that it repeats, or by none. -/
theorem yields_legalSplice :
    Yields (view <$> splice ⟨v⟩ start stop slot) s (fun u f => f.Holds u.top.green) True := by
  rw [view_splice]
  refine (Green.yields_legalSplice (htop.of_within hv.within) hnode hlayout start stop
    (holdsAll_toList hslot) (all_toList hmember)).bind (fun _ => trivial) fun c f hf hout => ?_
  obtain ⟨hc, hkind⟩ := hout
  exact View.yields_legalReplaceWith hv (htop.mono hf) hc (hkind ▸ View.permits_self hv htop.legal)

omit hnode in
/-- The collection has the text that it had, up to the members that are replaced. -/
theorem yields_spliceSlots (hle : start ≤ stop) (hstop : stop ≤ v.slotCount) :
    Yields (v.green.spliceSlots start stop (slot.toList.map some)) s
      (fun c f => f.Knows c ∧ c.kind = v.kind ∧ c.text.toList =
        Green.charsOf (v.green.slots.take start) ++
          (Green.charsOf [slot] ++ Green.charsOf (v.green.slots.drop stop)))
      (Width.limit ≤ Text.byteLength (Green.charsOf (v.green.slots.take start) ++
        (Green.charsOf [slot] ++ Green.charsOf (v.green.slots.drop stop)))) := by
  have hold := htop.of_within hv.within
  have hall : s.HoldsAll
      (v.green.slots.take start ++ slot.toList.map some ++ v.green.slots.drop stop) :=
    (Site.HoldsAll.append (fun c hc => hold.holdsAll_slots c (List.mem_of_mem_take hc))
      (holdsAll_toList hslot)).append fun c hc => hold.holdsAll_slots c (List.mem_of_mem_drop hc)
  have hgiven : Green.charsOf (slot.toList.map some) = Green.charsOf [slot] := by
    cases slot <;> rfl
  have hknows := fun c hc => (hall c hc).knows
  unfold Green.spliceSlots
  rw [show v.green.kind.layout = .collection members from hlayout]
  refine .guard (fun _ => .guard (fun _ => ?_) fun h => absurd (all_toList hmember) h)
    fun h => absurd ⟨hle, hstop⟩ h
  refine (yields_allocNode v.green.kind .present hknows).mono (fun c f _ hout => ?_) fun hwide => ?_
  · obtain ⟨hc, hisNode, hkind, hslots⟩ := hout
    refine ⟨hc, hkind, ?_⟩
    rw [Green.toList_text_of_slots hisNode, hslots, Green.charsOf_append, Green.charsOf_append,
      hgiven, List.append_assoc]
  · rwa [Registry.KnowsAll.slotsWidth_eq hknows, Green.charsOf_append, Green.charsOf_append,
      hgiven, List.append_assoc] at hwide

/-- Just when members of a collection in a legal tree can be replaced. -/
theorem splice_ok_iff (hle : start ≤ stop) (hstop : stop ≤ v.slotCount) :
    (∃ u, ((view <$> splice ⟨v⟩ start stop slot) s.store).1 = .ok u) ↔
      v.slotStart start + slot.elim 0 Green.width + (v.top.width - v.slotStart stop) <
        Width.limit := by
  have hold := htop.of_within hv.within
  obtain ⟨old, hpart⟩ := View.exists_part_slots hold.knows hnode hle
  have hwidth : Text.byteLength (Green.charsOf [slot]) = slot.elim 0 Green.width :=
    (Registry.KnowsAll.slotsWidth_eq fun c hc => (hslot c hc).knows).symm
  rw [← hwidth, ← hpart.byteLength_charsWith hv htop.knows, view_splice]
  generalize hchars : Green.charsOf (v.green.slots.take start) ++
    (Green.charsOf [slot] ++ Green.charsOf (v.green.slots.drop stop)) = chars
  have hyields : Yields (v.green.spliceSlots start stop (slot.toList.map some) >>= v.replaceWith) s
      (fun u f => Text.byteLength (v.charsWith chars) < Width.limit)
      (true = false ∨ Width.limit ≤ Text.byteLength (v.charsWith chars)) := by
    refine (yields_spliceSlots hv htop hlayout hslot hmember hle hstop).bind
      (fun hwide => .inr (Nat.le_trans hwide ?_)) fun c f hf hout => ?_
    · rw [hchars]
      simp only [View.charsWith, Text.byteLength_append]
      omega
    · obtain ⟨hc, hkind, htext⟩ := hout
      have haccepts : v.accepts c.kind = true :=
        View.accepts_of_permits hv htop.legal (hkind ▸ View.permits_self hv htop.legal)
      rw [hchars] at htext
      refine (View.yields_replaceWith hv (htop.knows.mono hf) hc).mono (fun u f' _ hu => ?_)
        fun hreason => ?_
      · exact htext ▸ hu.1.2.byteLength_lt hu.1.1
      · rw [haccepts, htext] at hreason
        exact hreason
  exact (hyields.exists_ok_iff fun u f hnarrow => ⟨rfl, hnarrow⟩).trans (by simp)

end

end Collection

namespace Edit

variable {e : Edit} {start stop : Nat} {members : KindSet}

/-- An edit that replaces members of a collection, those from `start` to `stop`. -/
structure Splices (e : Edit) (v : View) (start stop : Nat) (members : KindSet) : Prop where
  isNode : v.isNode = true
  layout_eq : v.kind.layout = .collection members
  le : start ≤ stop
  stop_le : stop ≤ v.slotCount
  member : ∀ x, e.given = some x → members.contains x.kind = true
  apply_eq : e.apply v = Collection.view <$> Collection.splice ⟨v⟩ start stop e.given
  bounds_eq : e.bounds v = (v.slotStart start, v.slotStart stop)

/-- An edit that is permitted puts something in the place of a view or into one of its slots, or it
replaces members of a collection. -/
theorem Permitted.cases (h : e.Permitted v) :
    (∃ x, e = replaceWith x) ∨ (∃ index slot, e = replaceSlot index slot) ∨
      ∃ start stop members, e.Splices v start stop members := by
  have hone {x y : Green} {k : KindSet} (hy : k.contains y.kind = true) (hx : some y = some x) :
      k.contains x.kind = true := Option.some.inj hx ▸ hy
  cases e with
  | replaceWith x => exact .inl ⟨x, rfl⟩
  | replaceSlot index slot => exact .inr (.inl ⟨index, slot, rfl⟩)
  | append x =>
    obtain ⟨members, hlayout, hx⟩ := Collection.exists_members_of_memberKinds h.2
    exact .inr (.inr ⟨_, _, members, h.1, hlayout, Nat.le_refl _, Nat.le_refl _, fun _ => hone hx,
      rfl, rfl⟩)
  | prepend x =>
    obtain ⟨members, hlayout, hx⟩ := Collection.exists_members_of_memberKinds h.2
    exact .inr (.inr ⟨_, _, members, h.1, hlayout, Nat.le_refl _, Nat.zero_le _, fun _ => hone hx,
      rfl, rfl⟩)
  | insert index x =>
    obtain ⟨members, hlayout, hx⟩ := Collection.exists_members_of_memberKinds h.2.2
    exact .inr (.inr ⟨_, _, members, h.1, hlayout, Nat.le_refl _, h.2.1, fun _ => hone hx,
      rfl, rfl⟩)
  | remove index =>
    obtain ⟨members, hlayout⟩ := Collection.exists_members_of_isCollection h.1
    refine .inr (.inr ⟨_, _, members, Green.isNode_of_lt h.2, hlayout, Nat.le_succ _, h.2,
      fun _ hx => (by cases hx), ?_, rfl⟩)
    exact congrArg (Collection.view <$> ·) (if_pos h.2)
  | replace index x =>
    obtain ⟨members, hlayout, hx⟩ := Collection.exists_members_of_memberKinds h.2
    refine .inr (.inr ⟨_, _, members, Green.isNode_of_lt h.1, hlayout, Nat.le_succ _, h.1,
      fun _ => hone hx, ?_, rfl⟩)
    exact congrArg (Collection.view <$> ·) (if_pos h.1)

section

variable (hv : v.Placed) (htop : s.Holds v.top.green) (hpermitted : e.Permitted v)
  (hgiven : s.HoldsAll [e.given])

include hv htop hpermitted hgiven

/-- An edit of a legal tree that is permitted gives a legal tree. -/
theorem yields_legal : Yields (e.apply v) s (fun u f => f.Holds u.top.green) True := by
  rcases hpermitted.cases with ⟨x, rfl⟩ | ⟨index, slot, rfl⟩ | ⟨start, stop, members, h⟩
  · exact View.yields_legalReplaceWith hv htop (hgiven x List.mem_cons_self) hpermitted
  · exact View.yields_legalReplaceSlot hv htop hgiven hpermitted.2
  · rw [h.apply_eq]
    exact Collection.yields_legalSplice hv htop h.isNode h.layout_eq hgiven h.member

/-- An edit of a legal tree that is permitted fails just if the tree gets too wide. -/
theorem ok_iff : (∃ u, (e.apply v s.store).1 = .ok u) ↔ e.widthAfter v < Width.limit := by
  have hself := View.accepts_of_permits hv htop.legal (View.permits_self hv htop.legal)
  rcases hpermitted.cases with ⟨x, rfl⟩ | ⟨index, slot, rfl⟩ | ⟨start, stop, members, h⟩
  · have haccepts := View.accepts_of_permits hv htop.legal hpermitted
    refine (View.replaceWith_ok_iff hv htop.knows (hgiven x List.mem_cons_self).knows).trans ?_
    rw [haccepts]
    exact and_iff_right rfl
  · have haccepts : v.green.accepts slot = true := by
      cases slot with
      | none => rfl
      | some x => exact View.takes_of_permits (hpermitted.2 x rfl)
    have hknows : s.KnowsAll [slot] := fun c hc => (hgiven c hc).knows
    refine (View.replaceSlot_ok_iff hv htop.knows hknows hpermitted.1).trans ?_
    rw [haccepts, hself]
    exact and_iff_right rfl
  · rw [h.apply_eq, widthAfter, h.bounds_eq]
    exact Collection.splice_ok_iff hv htop h.isNode h.layout_eq hgiven h.member h.le h.stop_le

end

/-- An edit of genuine elements gives genuine ones. -/
theorem ensures_genuine (hv : v.Genuine) (hpermitted : e.Permitted v)
    (hgiven : Green.GenuineAll [e.given]) : Ensures (e.apply v) View.Genuine := by
  rcases hpermitted.cases with ⟨x, rfl⟩ | ⟨index, slot, rfl⟩ | ⟨start, stop, members, h⟩
  · exact View.ensures_replaceWith hv (hgiven x List.mem_cons_self)
  · exact View.ensures_replaceSlot hv index hgiven
  · rw [h.apply_eq, Collection.view_splice]
    refine (Green.ensures_spliceSlots hv.green start stop ?_).bind fun c hc =>
      View.ensures_replaceWith hv hc
    cases hslot : e.given with
    | none => exact fun c hc => by cases hc
    | some x =>
      rw [hslot] at hgiven
      exact hgiven

/-- An edit that may be made: in a workspace that can be reached, at a place of a tree that is in
use, with something valid that is in use, too, and is permitted there. -/
structure Proper (w : Workspace) (store : Store) (r v : View) (e : Edit) : Prop where
  reachable : w.Reachable
  store_mem : store ∈ w.stores
  live : w.Live r.green
  isRoot : r.parent? = none
  found : ∃ path, r.descend? path = some v
  permitted : e.Permitted v
  given_live : ∀ x, e.given = some x → w.Live x
  given_valid : ∀ x, e.given = some x → (View.root store.tag x).isValid = true

/-- The trees that a tree can become by edits that may be made, one after another. -/
inductive Leads (r : View) : View → Prop where
  | nil : Leads r r
  | edit {w : Workspace} {store : Store} {c v u : View} {e : Edit} : Leads r c →
      Proper w store c v e → (e.apply v store).1 = .ok u → Leads r u.top

/-- An edit of a valid tree that may be made fails just if the tree gets too wide, and otherwise
gives a valid tree. -/
theorem Proper.outcome {w : Workspace} {store : Store} {r : View} (h : Proper w store r v e)
    (hvalid : r.isValid = true) :
    ((∃ u, (e.apply v store).1 = .ok u) ↔ e.widthAfter v < Width.limit) ∧
      ∀ u, (e.apply v store).1 = .ok u → u.top.isValid = true := by
  obtain ⟨registry, hsound⟩ := h.reachable.exists_sound
  have hgenuine := h.reachable.genuine
  obtain ⟨hroot, htop⟩ : r.Placed ∧ r.top = r := by
    cases r with
    | root tag g => exact ⟨trivial, rfl⟩
    | child parent index offset g => cases h.isRoot
  obtain ⟨path, hpath⟩ := h.found
  obtain ⟨hv, hvtop, -⟩ := hroot.of_descend? hpath
  rw [htop] at hvtop
  have hlegal := (View.isValid_iff (hgenuine.of_live h.live)).mp hvalid
  have hholds : (hsound.site h.store_mem).Holds v.top.green := by
    rw [hvtop]
    exact ⟨hsound.knows h.live, hlegal⟩
  have hgiven : (hsound.site h.store_mem).HoldsAll [e.given] := by
    intro x hx
    have hx := (List.mem_singleton.mp hx).symm
    have hlive := h.given_live x hx
    refine ⟨hsound.knows hlive, ?_⟩
    exact (View.isValid_iff (v := .root store.tag x) (hgenuine.of_live hlive)).mp
      (h.given_valid x hx)
  refine ⟨ok_iff hv hholds h.permitted hgiven, fun u hu => ?_⟩
  have hview : v.Genuine := hv.genuine (hvtop ▸ hgenuine.of_live h.live)
  have hgenuineGiven : Green.GenuineAll [e.given] := fun x hx =>
    hgenuine.of_live (h.given_live x (List.mem_singleton.mp hx).symm)
  have hugenuine := (ensures_genuine hview h.permitted hgenuineGiven store
    (hgenuine.stores store h.store_mem)).2 u hu
  obtain ⟨f, hulegal⟩ := (yields_legal hv hholds h.permitted hgiven).of_ok hu
  exact (View.isValid_iff hugenuine.top).mpr hulegal.legal

/-- A valid tree stays valid by edits that may be made. -/
theorem Leads.isValid {r c : View} (h : Leads r c) (hr : r.isValid = true) : c.isValid = true := by
  induction h with
  | nil => exact hr
  | edit _ hproper hu ih => exact (hproper.outcome ih).2 _ hu

/-- A valid tree stays valid however often it is edited: after any edits that may be made the tree
is valid, and the next such edit fails just if the tree gets too wide, and otherwise gives a valid
tree again. -/
theorem valid_after_edits {w : Workspace} {store : Store} {r c : View} (hr : r.isValid = true)
    (hedits : Leads r c) (hproper : Proper w store c v e) :
    c.isValid = true ∧ ((∃ u, (e.apply v store).1 = .ok u) ↔ e.widthAfter v < Width.limit) ∧
      ∀ u, (e.apply v store).1 = .ok u → u.top.isValid = true := by
  have hc := hedits.isValid hr
  obtain ⟨hok, hvalid⟩ := hproper.outcome hc
  exact ⟨hc, hok, hvalid⟩

open Scene

/-- A list of one statement, a placeholder for a declaration. -/
def pending : Green := branch 2 .stmtList [some (hole 0 .letDecl)]

/-- A list of statements gets one more placeholder for a declaration, which then gets its keyword
and becomes present. -/
theorem valid_after_edits_keyword :
    ∃ (w : Workspace) (store : Store) (r c v u : View) (x : Green), r.isValid = true ∧
      Leads r c ∧ Proper w store c v (.replaceSlot 0 (some x)) ∧ r.slotCount = 1 ∧
      c.slotCount = 2 ∧ v.isMissing = true ∧ x.text = "let" ∧
      (apply v (.replaceSlot 0 (some x)) store).1 = .ok u ∧ u.top.isValid = true := by
  let c := ofTrees [pending, word 1 .letKw "let"]
  let g := branch 3 .stmtList [some (hole 0 .letDecl), some (hole 0 .letDecl)]
  obtain ⟨s, htag, hsplice, hreplace⟩ : ∃ s, s.tag = 0 ∧
      pending.spliceSlots 1 1 [some (hole 0 .letDecl)] c.store = (.ok g, s) ∧
      (View.root 0 pending).replaceWith g s = (.ok (.root 0 g), s) := ⟨_, rfl, rfl, rfl⟩
  have hw : c.workspace.Reachable := reachable_ofTrees rfl
  have hw' := reachable_of_ok hw (.spliceSlots pending 1 1 [some (hole 0 .letDecl)])
    (inUse_of_found rfl) (Alloc.map_eq_of_ok hsplice)
  have hr : (View.root 0 pending).isValid = true := by decide +kernel
  have hfirst : Proper c.workspace c.store (.root 0 pending) (.root 0 pending)
      (.append (hole 0 .letDecl)) := by
    refine ⟨hw, c.store_mem, live_of_found rfl, rfl, ⟨[], rfl⟩, ⟨rfl, by decide⟩, ?_, ?_⟩
    · rintro _ ⟨rfl⟩
      exact live_of_found rfl
    · rintro _ ⟨rfl⟩
      decide +kernel
  have hedits : Leads (.root 0 pending) (.root 0 g) := by
    have hrun : apply (.root 0 pending) (.append (hole 0 .letDecl)) c.store =
        (.ok (.root 0 g), s) := by
      refine (congrFun (Collection.view_splice (.root 0 pending) 1 1 (some _)) _).trans ?_
      exact (Alloc.bind_eq_of_ok hsplice).trans hreplace
    exact .edit (u := .root 0 g) .nil hfirst (congrArg Prod.fst hrun)
  have hsecond : Proper (workspace ⟨s, .green g :: c.handles⟩) s (.root 0 g)
      (.child (.root 0 g) 1 0 (hole 0 .letDecl))
      (.replaceSlot 0 (some (word 1 .letKw "let"))) := by
    refine ⟨hw', store_mem _, live_of_mem List.mem_cons_self, rfl, ⟨[1], rfl⟩, ⟨by decide, ?_⟩,
      ?_, ?_⟩
    · rintro _ ⟨rfl⟩
      decide
    · rintro _ ⟨rfl⟩
      exact live_of_found rfl
    · rintro _ ⟨rfl⟩
      rw [htag]
      decide +kernel
  obtain ⟨-, hok, hresult⟩ := valid_after_edits hr hedits hsecond
  obtain ⟨u, hu⟩ := hok.mpr (by decide)
  have htext : (word 1 .letKw "let").text = "let" := Green.text_eq_join _
  exact ⟨_, s, .root 0 pending, .root 0 g, _, u, word 1 .letKw "let", hr, hedits, hsecond, rfl, rfl,
    rfl, htext, hu, hresult u hu⟩

end Edit

end Verbatim
