import Verbatim.Proofs.Revising
import Verbatim.Proofs.Taking

/-!
# Collections as lists

The members of a collection are added, removed and replaced one after another. Each change makes the
collection and everything above it anew, and the next change starts from there. However many changes
are made, the members are those that the same changes of a list give, the text of the tree changes
in the place of the collection only, and a change fails just if its index is out of range, if the
collection does not repeat the kind of what is added, or if the tree gets too wide.
-/

namespace Verbatim

/-- A change of the members of a collection. -/
inductive Change where
  /-- One more member at the end. -/
  | append (x : Green)
  /-- One more member at the start. -/
  | prepend (x : Green)
  /-- One more member at an index. -/
  | insert (index : Nat) (x : Green)
  /-- One member less. -/
  | remove (index : Nat)
  /-- Another member in the place of one. -/
  | replace (index : Nat) (x : Green)

namespace Change

/-- Makes a change; gives the changed collection in its new tree. -/
def apply (c : Collection) : Change → Alloc Collection
  | append x => c.appending x
  | prepend x => c.prepending x
  | insert index x => c.inserting index x
  | remove index => c.removing index
  | replace index x => c.replacing index x

/-- The same change of a list. -/
def on (members : List Green) : Change → List Green
  | append x => members ++ [x]
  | prepend x => x :: members
  | insert index x => members.insertIdx index x
  | remove index => members.eraseIdx index
  | replace index x => members.set index x

/-- What is added. -/
def given : Change → Slot
  | remove _ => none
  | append x | prepend x | insert _ x | replace _ x => some x

/-- Whether the index of a change is one of a collection with so many members. -/
def inRange (length : Nat) : Change → Bool
  | append _ | prepend _ => true
  | insert index _ => index ≤ length
  | remove index | replace index _ => index < length

/-- From where to where members give way to what is added. -/
def bounds (length : Nat) : Change → Nat × Nat
  | append _ => (length, length)
  | prepend _ => (0, 0)
  | insert index _ => (index, index)
  | remove index | replace index _ => (index, index + 1)

variable {change : Change} {length : Nat} {L : List Green} {c : Collection}

/-- A change is in range if its bounds are in order and within the list. -/
theorem inRange_iff : change.inRange length = true ↔
    (change.bounds length).1 ≤ (change.bounds length).2 ∧ (change.bounds length).2 ≤ length := by
  cases change with
  | append x => exact iff_of_true rfl ⟨Nat.le_refl _, Nat.le_refl _⟩
  | prepend x => exact iff_of_true rfl ⟨Nat.le_refl _, Nat.zero_le _⟩
  | insert index x => exact decide_eq_true_iff.trans (and_iff_right (Nat.le_refl _)).symm
  | remove index => exact decide_eq_true_iff.trans (and_iff_right (Nat.le_succ _)).symm
  | replace index x => exact decide_eq_true_iff.trans (and_iff_right (Nat.le_succ _)).symm

/-- Inserting splits a list at the place. -/
theorem insertIdx_eq {index : Nat} (x : Green) (h : index ≤ L.length) :
    L.insertIdx index x = L.take index ++ x :: L.drop index := by
  induction L generalizing index with
  | nil =>
    obtain rfl : index = 0 := Nat.le_zero.mp h
    rfl
  | cons y L ih =>
    cases index with
    | zero => rfl
    | succ index =>
      rw [List.insertIdx_succ_cons, ih (Nat.le_of_succ_le_succ h)]
      rfl

/-- A change of a list takes out what is between its bounds and puts in what is added. -/
theorem on_eq (h : change.inRange L.length = true) :
    change.on L = L.take (change.bounds L.length).1 ++ change.given.toList ++
      L.drop (change.bounds L.length).2 := by
  cases change with
  | append x => simp [on, bounds, given]
  | prepend x => rfl
  | insert index x =>
    rw [on, insertIdx_eq x (of_decide_eq_true h)]
    simp [bounds, given]
  | remove index =>
    rw [on, List.eraseIdx_eq_take_drop_succ]
    simp [bounds, given]
  | replace index x =>
    rw [on, List.set_eq_take_append_cons_drop, if_pos (of_decide_eq_true h)]
    simp [bounds, given]

/-- A change whose index is in range takes members out and puts one in, in one go. -/
theorem apply_eq (h : change.inRange c.length = true) :
    change.apply c =
      c.splice (change.bounds c.length).1 (change.bounds c.length).2 change.given := by
  cases change with
  | append x => rfl
  | prepend x => rfl
  | insert index x => rfl
  | remove index => exact if_pos (of_decide_eq_true h)
  | replace index x => exact if_pos (of_decide_eq_true h)

/-- A change whose index is out of range fails before anything is made. -/
theorem exists_fault (h : change.inRange c.length = false) (s : Store) :
    ∃ fault, change.apply c s = (.error fault, s) := by
  cases change with
  | append x => cases h
  | prepend x => cases h
  | insert index x =>
    have hout : ¬ (index ≤ index ∧ index ≤ c.view.green.slots.length) := fun hin =>
      of_decide_eq_false h hin.2
    refine ⟨.rangeOutOfBounds index index c.view.green.kind c.view.green.slots.length,
      Alloc.bind_eq_of_error ?_⟩
    rw [Green.spliceSlots, if_neg hout]
    rfl
  | remove index => exact ⟨_, congrFun (if_neg (of_decide_eq_false h)) s⟩
  | replace index x => exact ⟨_, congrFun (if_neg (of_decide_eq_false h)) s⟩

end Change

namespace Green

/-- A present node whose slots hold these members. -/
def Lists (g : Green) (kind : Kind) (L : List Green) : Prop :=
  ∃ id, g = .node ⟨id, kind, .present, slotsWidth (L.map some),
    errorOf kind .present (L.map some)⟩ (L.map some)

variable {g g' : Green} {kind : Kind} {L : List Green}

namespace Lists

theorem isNode (h : g.Lists kind L) : g.isNode = true := by
  obtain ⟨id, rfl⟩ := h
  rfl

theorem kind_eq (h : g.Lists kind L) : g.kind = kind := by
  obtain ⟨id, rfl⟩ := h
  rfl

/-- A collection that lists some elements holds them in its slots. -/
theorem slots_eq (h : g.Lists kind L) : g.slots = L.map some := by
  obtain ⟨id, rfl⟩ := h
  rfl

/-- A collection is as wide as what it lists. -/
theorem width_eq (h : g.Lists kind L) : g.width = sumOf width L := by
  obtain ⟨id, rfl⟩ := h
  exact sumOf_map ..

/-- The text of a collection is that of its members one after another. -/
theorem text_eq (h : g.Lists kind L) : g.text = String.join (L.map text) := by
  apply String.toList_inj.mp
  rw [toList_text_of_slots h.isNode, h.slots_eq, String.toList_join, List.flatMap_map]
  clear h
  induction L with
  | nil => rfl
  | cons x L ih => rw [List.map_cons, charsOf_some_cons, ih, List.flatMap_cons]

/-- Collections of one kind with the same members are equal by value. -/
theorem sameValue (h : g.Lists kind L) (h' : g'.Lists kind L) : g.sameValue g' = true := by
  obtain ⟨id, rfl⟩ := h
  obtain ⟨id', rfl⟩ := h'
  exact sameValue_of_value_eq rfl

end Lists

/-- A present collection that is legal lists its members. -/
theorem Legal.exists_lists {r : Registry} {members : KindSet} (hg : r.Knows g) (hlegal : g.Legal)
    (hnode : g.isNode = true) (hlayout : g.kind.layout = .collection members)
    (hpresent : g.isMissing = false) : ∃ L, g.Lists g.kind L := by
  have hfollows : g.follows = true := hlegal g .refl hnode
  rw [follows, hlayout, Layout.allows, List.all_eq_true] at hfollows
  refine ⟨g.slots.filterMap fun slot => slot, ?_⟩
  have hslots : (g.slots.filterMap fun slot => slot).map some = g.slots := by
    rw [List.map_filterMap_some_eq_filter_map_isSome, List.map_id']
    exact List.filter_eq_self.mpr fun slot hslot => Option.isSome_of_any (hfollows slot hslot)
  cases g with
  | token t => cases hnode
  | node head slots =>
    obtain ⟨id, kind, presence, width, error⟩ := head
    have hpresence : presence = .present := by
      cases presence with
      | present => rfl
      | missing => cases hpresent
    subst hpresence
    refine ⟨id, ?_⟩
    rw [hslots]
    have hwidth := r.width_eq hg
    have herror := r.hasError_eq hg
    dsimp only at hwidth herror
    rw [hwidth, herror]
    rfl

end Green

open Alloc

/-- What stands before a slot that gets another element, and what stands behind it, keeps its
text. -/
theorem Green.Refilled.charsOf_around {g x : Green} {index : Nat} {slots : List Slot}
    (h : g.Refilled index (some x) slots) (hindex : index < g.slots.length) :
    charsOf (slots.take index) = charsOf (g.slots.take index) ∧
      charsOf (slots.drop (index + 1)) = charsOf (g.slots.drop (index + 1)) := by
  obtain ⟨before, middle, after, rfl, hbefore, hafter, hmiddle⟩ := h
  have hlength : before.length = index := by
    rw [hbefore.length_eq, List.length_take]
    omega
  have hone : middle.length = 1 := by
    rcases hmiddle with ⟨⟨-, hnone⟩, -⟩ | ⟨-, hfilled⟩
    · cases hnone
    · exact hfilled.length_eq
  have hfront : (before ++ middle).length = index + 1 := by rw [List.length_append, hlength, hone]
  constructor
  · rw [← hlength, List.take_left, hlength, hbefore.charsOf_eq]
  · rw [← hfront, ← List.append_assoc, List.drop_left, hfront, hafter.charsOf_eq]

namespace View

/-- Whether the same text stands around two views, and the same is accepted in their places. -/
structure Around (v u : View) : Prop where
  before_eq : u.before = v.before
  after_eq : u.after = v.after
  accepts_eq : ∀ kind, u.accepts kind = v.accepts kind

theorem Around.refl (v : View) : v.Around v := ⟨rfl, rfl, fun _ => rfl⟩

variable {e : Site} {v u t : View} {x y : Green}

theorem Around.trans (h : v.Around u) (h' : u.Around t) : v.Around t where
  before_eq := h'.before_eq.trans h.before_eq
  after_eq := h'.after_eq.trans h.after_eq
  accepts_eq kind := (h'.accepts_eq kind).trans (h.accepts_eq kind)

/-- What is made anew above a view keeps the text around the view, and accepts what was accepted. -/
theorem yields_around (hv : v.Placed) (htop : e.Knows v.top.green) (hx : e.Knows x) :
    Yields (v.replaceWith x) e (fun u _ => u.green = x ∧ v.Around u) True := by
  induction v generalizing e x with
  | root store g => exact .pure ⟨rfl, rfl, rfl, fun _ => rfl⟩
  | child parent index offset g ih =>
    obtain ⟨hparent, hslot, -⟩ := placed_child.mp hv
    have hindex : index < parent.green.slots.length := (List.getElem?_eq_some_iff.mp hslot).1
    have hknows : e.Knows parent.green := Registry.Knows.of_within htop hparent.within
    have hslots : e.KnowsAll [some x] := fun c hc =>
      Option.some.inj (List.mem_singleton.mp hc) ▸ hx
    refine (Green.yields_replaceSlot hknows hslots hindex).bind (fun _ => trivial)
      fun c f hf hout => ?_
    obtain ⟨⟨hc, hrefilled⟩, -⟩ := hout
    obtain ⟨htake, hdrop⟩ := hrefilled.slots.charsOf_around hindex
    refine (ih hparent (htop.mono hf) hc).bind (fun _ => trivial) fun u f' _ hout => .pure ?_
    obtain ⟨rfl, haround⟩ := hout
    refine ⟨rfl, ?_, ?_, fun kind => ?_⟩
    · rw [before, before, haround.before_eq, htake]
    · rw [after, after, haround.after_eq, hdrop]
    · have hkind : u.kind = parent.kind := hrefilled.kind_eq
      rw [accepts, accepts, hkind, haround.accepts_eq]

/-- A view is in its own place. -/
theorem Placed.replaced_self (hv : v.Placed) : v.Replaced v.green v :=
  ⟨rfl, hv, rfl, rfl, hv.toList_text_top, fun _ _ hg _ _ => hg⟩

/-- What is in the place of something that is in the place of a view is in the place of the view. -/
theorem Replaced.trans (h : v.Replaced x u) (haround : v.Around u) (h' : u.Replaced y t) :
    v.Replaced y t where
  green_eq := h'.green_eq
  placed := h'.placed
  path_eq := h'.path_eq.trans h.path_eq
  offset_eq := h'.offset_eq.trans h.offset_eq
  text_eq := by rw [h'.text_eq, charsWith, haround.before_eq, haround.after_eq, charsWith]
  kept q g hg hprefix hbelow := by
    refine h'.kept q g (h.kept q g hg hprefix hbelow) ?_ ?_
    · rwa [h.path_eq]
    · rwa [h.path_eq]

end View

namespace Collection

/-- A collection that lists these members stands in the place of another. -/
structure Stands (c : Collection) (L : List Green) (d : Collection) : Prop where
  lists : d.view.green.Lists c.view.kind L
  replaced : c.view.Replaced d.view.green d.view
  around : c.view.Around d.view

variable {e : Site} {c d : Collection} {members : KindSet} {L : List Green} {slot : Slot}
  {start stop : Nat}

/-- Changes may be made one after the other. -/
theorem Stands.trans {L' : List Green} {d' : Collection} (h : c.Stands L d)
    (h' : d.Stands L' d') : c.Stands L' d' where
  lists := h.lists.kind_eq ▸ h'.lists
  replaced := h.replaced.trans h.around h'.replaced
  around := h.around.trans h'.around

/-- How wide the tree of a collection gets with other members. -/
def widthWith (c : Collection) (L : List Green) : Nat :=
  c.view.top.width - c.view.width + sumOf Green.width L

/-- Whether members from `start` to `stop` may give way to what is added. -/
def suits (members : KindSet) (L : List Green) (start stop : Nat) (slot : Slot) : Bool :=
  decide (start ≤ stop ∧ stop ≤ L.length) && slot.all fun x => members.contains x.kind

/-- The members after some gave way to what is added. -/
def spliced (L : List Green) (start stop : Nat) (slot : Slot) : List Green :=
  L.take start ++ slot.toList ++ L.drop stop

/-- Members of a collection give way to others, unless they do not suit or get too wide. -/
theorem yields_spliceMembers {g : Green} (hg : e.Knows g) (hlists : g.Lists g.kind L)
    (hlayout : g.kind.layout = .collection members) (hslot : e.KnowsAll [slot]) :
    Yields (g.spliceSlots start stop (slot.toList.map some)) e
      (fun c f => (f.Knows c ∧ c.Lists g.kind (spliced L start stop slot)) ∧
        suits members L start stop slot = true)
      (suits members L start stop slot = false ∨
        Width.limit ≤ sumOf Green.width (spliced L start stop slot)) := by
  have hslots := hlists.slots_eq
  have hlength : g.slots.length = L.length := by rw [hslots, List.length_map]
  have hspliced : g.slots.take start ++ slot.toList.map some ++ g.slots.drop stop =
      (spliced L start stop slot).map some := by
    rw [hslots, spliced, List.map_append, List.map_append, List.map_take, List.map_drop]
  have hall : (slot.toList.map some).all (fun s => s.any fun x => members.contains x.kind) =
      slot.all fun x => members.contains x.kind := by
    cases slot with
    | none => rfl
    | some x => simp
  have hknows : e.KnowsAll ((spliced L start stop slot).map some) := by
    rw [← hspliced]
    intro c hc
    have hold := Registry.Knows.knowsAll_slots hg
    rcases List.mem_append.mp hc with hc | hc
    · rcases List.mem_append.mp hc with hc | hc
      · exact hold c (List.mem_of_mem_take hc)
      · cases slot with
        | none => cases hc
        | some x => exact hslot c hc
    · exact hold c (List.mem_of_mem_drop hc)
  unfold Green.spliceSlots
  rw [hlayout, hlength, hspliced]
  refine .guard (fun hrange => ?_) fun h => .inl ?_
  · dsimp only [Layout.members?]
    rw [hall]
    refine .guard (fun hkinds => ?_) fun h => .inl ?_
    · obtain ⟨f, hf, ⟨hwide, hrun⟩ | ⟨c, -, hrun, hc, -⟩⟩ :=
        allocNode_outcome g.kind .present hknows
      · refine ⟨f, hf, .inr ⟨_, hrun, .inr ?_⟩⟩
        rwa [Green.slotsWidth, sumOf_map] at hwide
      · refine ⟨f, hf, .inl ⟨c, hrun, ⟨hc.knows, hc.eq⟩, ?_⟩⟩
        rw [suits, decide_eq_true hrange, hkinds]
        rfl
    · rw [suits, eq_false_of_ne_true h, Bool.and_false]
  · rw [suits, decide_eq_false h, Bool.false_and]

/-- A collection in its place that lists these members and repeats these kinds, and that everything
above accepts where it stands. -/
structure Changeable (c : Collection) (members : KindSet) (L : List Green) : Prop where
  placed : c.view.Placed
  lists : c.view.green.Lists c.view.kind L
  layout_eq : c.view.kind.layout = .collection members
  accepts_eq : c.view.accepts c.view.kind = true

/-- A collection stands for its own members. -/
theorem Changeable.stands (hc : c.Changeable members L) : c.Stands L c :=
  ⟨hc.lists, hc.placed.replaced_self, .refl _⟩

theorem Changeable.length_eq (hc : c.Changeable members L) : c.length = L.length := by
  rw [length, View.slotCount, hc.lists.slots_eq, List.length_map]

theorem Changeable.memberKinds_eq (hc : c.Changeable members L) : c.memberKinds = members := by
  rw [memberKinds, hc.layout_eq]
  rfl

theorem map_green_inSlots (parent : View) (index offset : Nat) (L : List Green) :
    (View.inSlots parent index offset (L.map some)).map View.green = L := by
  induction L generalizing index offset with
  | nil => rfl
  | cons x L ih => exact congrArg (x :: ·) (ih (index + 1) (offset + x.width))

/-- The members of a collection that can be changed are what it lists. -/
theorem Changeable.map_members (hc : c.Changeable members L) : c.members.map View.green = L := by
  have hslots := map_green_inSlots c.view 0 c.view.offset L
  rwa [← hc.lists.slots_eq] at hslots

/-- What stands in the place of a collection can be changed as well. -/
theorem Stands.changeable {L' : List Green} (h : c.Stands L' d) (hc : c.Changeable members L) :
    d.Changeable members L' := by
  have hkind : d.view.kind = c.view.kind := h.lists.kind_eq
  refine ⟨h.replaced.placed, ?_, ?_, ?_⟩
  · rw [hkind]
    exact h.lists
  · rw [hkind, hc.layout_eq]
  · rw [h.around.accepts_eq, hkind, hc.accepts_eq]

section

variable {r : Registry} (hc : c.Changeable members L)

include hc

/-- The text around a collection and its members make up the width of the tree. -/
theorem Changeable.top_width_eq (htop : r.Knows c.view.top.green) : c.view.top.width =
    Text.byteLength c.view.before + c.view.width + Text.byteLength c.view.after := by
  have hwidth : c.view.width = Text.byteLength c.view.text.toList :=
    (htop.of_within hc.placed.within).width_eq
  have hwhole : c.view.top.width = Text.byteLength c.view.top.text.toList := htop.width_eq
  rw [hc.placed.toList_text_top, Text.byteLength_append, Text.byteLength_append] at hwhole
  omega

/-- The width of the tree after a change: what stands before, the new members and what stands after.
-/
theorem Changeable.widthWith_eq (htop : r.Knows c.view.top.green) (L' : List Green) :
    c.widthWith L' =
      Text.byteLength c.view.before + sumOf Green.width L' + Text.byteLength c.view.after := by
  have hwhole := hc.top_width_eq htop
  rw [widthWith]
  omega

/-- With the members that it has, the tree is as wide as it is. -/
theorem Changeable.widthWith_self (htop : r.Knows c.view.top.green) :
    c.widthWith L = c.view.top.width := by
  rw [hc.widthWith_eq htop, hc.top_width_eq htop, show c.view.width = _ from hc.lists.width_eq]

/-- Members give way to others in a tree, unless they do not suit or the tree gets too wide. -/
theorem Changeable.yields_splice (htop : e.Knows c.view.top.green) (hslot : e.KnowsAll [slot]) :
    Yields (c.splice start stop slot) e
      (fun d f => (f.Knows d.view.top.green ∧ c.Stands (spliced L start stop slot) d) ∧
        suits members L start stop slot = true ∧
        c.widthWith (spliced L start stop slot) < Width.limit)
      (suits members L start stop slot = false ∨
        Width.limit ≤ c.widthWith (spliced L start stop slot)) := by
  have hknows : e.Knows c.view.green := Registry.Knows.of_within htop hc.placed.within
  refine (yields_spliceMembers hknows hc.lists hc.layout_eq hslot).bind (fun hreason => ?_)
    fun g f hf hout => ?_
  · refine hreason.imp_right fun hwide => Nat.le_trans hwide ?_
    rw [widthWith]
    exact Nat.le_add_left ..
  · obtain ⟨⟨hg, hnew⟩, hsuits⟩ := hout
    have htext : sumOf Green.width (spliced L start stop slot) = Text.byteLength g.text.toList :=
      hnew.width_eq.symm.trans (Registry.Knows.width_eq hg)
    have hwidth : Text.byteLength (c.view.charsWith g.text.toList) =
        c.widthWith (spliced L start stop slot) := by
      rw [View.charsWith, Text.byteLength_append, Text.byteLength_append, hc.widthWith_eq htop,
        htext, Nat.add_assoc]
    have hup : c.view.accepts g.kind = true := hnew.kind_eq ▸ hc.accepts_eq
    obtain ⟨f', hf', ⟨u, hrun, ⟨hu, hreplaced⟩, -⟩ | ⟨fault, hrun, hreason⟩⟩ :=
      View.yields_replaceWith hc.placed (htop.mono hf) hg
    · obtain ⟨-, hgreen, haround⟩ :=
        (View.yields_around hc.placed (htop.mono hf) hg).of_ok (by rw [hrun])
      subst hgreen
      refine ⟨f', hf', .inl ⟨⟨u⟩, bind_eq_of_ok hrun, ⟨hu, hnew, hreplaced, haround⟩, hsuits, ?_⟩⟩
      rw [← hwidth]
      exact hreplaced.byteLength_lt hu
    · refine ⟨f', hf', .inr ⟨fault, bind_eq_of_error hrun, .inr ?_⟩⟩
      rw [← hwidth]
      exact hreason.resolve_left (by rw [hup]; exact Bool.noConfusion)

end

end Collection

namespace Change

variable {e : Site} {c : Collection} {members : KindSet} {L : List Green} {change : Change}

/-- What comes out of a change, and why there may be nothing. -/
theorem yields_apply (hc : c.Changeable members L) (htop : e.Knows c.view.top.green)
    (hgiven : e.KnowsAll [change.given]) :
    Yields (change.apply c) e
      (fun d f => (f.Knows d.view.top.green ∧ c.Stands (change.on L) d) ∧
        (change.inRange L.length && change.given.all fun x => members.contains x.kind) = true ∧
        c.widthWith (change.on L) < Width.limit)
      ((change.inRange L.length && change.given.all fun x => members.contains x.kind) = false ∨
        Width.limit ≤ c.widthWith (change.on L)) := by
  cases hrange : change.inRange L.length with
  | false =>
    rw [← hc.length_eq] at hrange
    obtain ⟨fault, hfault⟩ := exists_fault hrange e.store
    exact ⟨e, .refl e, .inr ⟨fault, hfault, .inl (Bool.false_and _)⟩⟩
  | true =>
    have hsuits : Collection.suits members L (change.bounds L.length).1 (change.bounds L.length).2
        change.given = change.given.all fun x => members.contains x.kind := by
      rw [Collection.suits, decide_eq_true (inRange_iff.mp hrange), Bool.true_and]
    have hsplice : Yields (c.splice (change.bounds L.length).1 (change.bounds L.length).2
        change.given) e _ _ := hc.yields_splice htop hgiven
    rw [hsuits, Collection.spliced, ← on_eq hrange] at hsplice
    rw [apply_eq (hc.length_eq.symm ▸ hrange), hc.length_eq, Bool.true_and]
    exact hsplice

/-- A change that may be made: in a workspace that can be reached, in which the tree of the
collection is in use and what is added, too. -/
structure Proper (w : Workspace) (store : Store) (c : Collection) (change : Change) : Prop where
  reachable : w.Reachable
  store_mem : store ∈ w.stores
  live : w.Live c.view.top.green
  given_live : ∀ x, change.given = some x → w.Live x

/-- Just when a change can be made, and what it leads to. Whatever is in use in the workspace stays
what it is: nothing else in the new tree has its identity. -/
theorem Proper.outcome {w : Workspace} {store : Store} (h : change.Proper w store c)
    (hc : c.Changeable members L) :
    ((∃ d, (change.apply c store).1 = .ok d) ↔
      (change.inRange L.length && change.given.all fun x => members.contains x.kind) = true ∧
        c.widthWith (change.on L) < Width.limit) ∧
    ∀ d, (change.apply c store).1 = .ok d → c.Stands (change.on L) d ∧
      ∀ x y, w.Live x → y.Within d.view.top.green → x.id = y.id → x = y := by
  obtain ⟨r, hsound⟩ := h.reachable.exists_sound
  have hknows {x : Green} (hx : w.Live x) : (hsound.site h.store_mem).Knows x := hsound.knows hx
  have hyields := yields_apply hc (hknows h.live) fun x hx =>
    hknows (h.given_live x (List.mem_singleton.mp hx).symm)
  refine ⟨hyields.exists_ok_iff fun d f hout => hout.2, fun d hd => ?_⟩
  obtain ⟨f, hf, ⟨hd, hstands⟩, -⟩ :=
    (hyields.mono (fun _ _ hf hout => And.intro hf hout) id).of_ok hd
  refine ⟨hstands, fun x y hx hy hid => ?_⟩
  exact Registry.Knows.eq_of_id ((hknows hx).mono hf) (Registry.Knows.of_within hd hy) hid

end Change

namespace Collection

/-- What a collection becomes by changes that may be made, one after another. -/
inductive Becomes (c : Collection) : List Change → Collection → Prop where
  | nil : Becomes c [] c
  | change {w : Workspace} {store : Store} {changes : List Change} {d d' : Collection}
      {change : Change} : Becomes c changes d → change.Proper w store d →
      (change.apply d store).1 = .ok d' → Becomes c (changes ++ [change]) d'

variable {w : Workspace} {c d : Collection} {L : List Green} {members : KindSet}
  {changes : List Change}

/-- However a collection is changed, it lists what the same changes of a list give. -/
theorem Becomes.stands (h : c.Becomes changes d) (hc : c.Changeable members L) :
    c.Stands (changes.foldl Change.on L) d := by
  induction h with
  | nil => exact hc.stands
  | @change w store changes d d' change _ hproper hd' ih =>
    rw [List.foldl_append]
    exact ih.trans ((hproper.outcome (ih.changeable hc)).2 d' hd').1

/-- A present collection of a valid tree can be changed. -/
theorem exists_changeable {v : View} (hw : w.Reachable) {tag : Nat} {g : Green} (hg : w.Live g)
    (hvalid : (View.root tag g).isValid = true) {path : List Nat}
    (hv : (View.root tag g).descend? path = some v) (hnode : v.isNode = true)
    (hkind : v.kind.isCollection = true) (hpresent : v.isMissing = false) :
    ∃ (r : Registry) (members : KindSet) (L : List Green), r.Knows v.top.green ∧
      Changeable ⟨v⟩ members L := by
  obtain ⟨r, hsound⟩ := hw.exists_sound
  obtain ⟨hplaced, htop, -⟩ := View.Placed.of_descend? (v := .root tag g) trivial hv
  have hlegal : v.top.green.Legal := by
    rw [htop]
    exact (View.isValid_iff (v := .root tag g) (hw.genuine.of_live hg)).mp hvalid
  have hknows : r.Knows v.top.green := by
    rw [htop]
    exact hsound.knows hg
  obtain ⟨members, hlayout⟩ := exists_members_of_isCollection hkind
  obtain ⟨L, hL⟩ := Green.Legal.exists_lists (hknows.of_within hplaced.within)
    (hlegal.of_within hplaced.within) hnode hlayout hpresent
  refine ⟨r, members, L, hknows, hplaced, hL, hlayout, ?_⟩
  exact View.accepts_of_permits hplaced hlegal (View.permits_self hplaced hlegal)

/-- Take any present collection of a valid tree that is in use in a workspace that can be reached,
and make changes of it that may be made, as many as you like.

The members are then, the very same elements, what the same changes of the list of members give. The
text of the tree is the old one with the texts of the members, one after another, in the place of
the collection. One more change fails just if its index is out of range, if the collection does not
repeat the kind of what is added, or if the tree gets too wide; if it succeeds, whatever is in use
stays what it is, in that nothing else in the new tree has its identity. If the one change was to
add a member at the end, then that one can be taken away again, and the collection is equal by value
to what it was. -/
theorem members_after_changes {v : View} {tag : Nat} {g : Green} {path : List Nat}
    (hw : w.Reachable) (hg : w.Live g) (hvalid : (View.root tag g).isValid = true)
    (hv : (View.root tag g).descend? path = some v) (hnode : v.isNode = true)
    (hc : ofView? v = some c) (hpresent : v.isMissing = false) (hchanges : c.Becomes changes d) :
    d.members.map View.green = changes.foldl Change.on (c.members.map View.green) ∧
    v.Edited v.offset (v.offset + v.width) (String.join (d.members.map View.text)) d.view ∧
    (∀ (w : Workspace) (store : Store) (change : Change), change.Proper w store d →
      ((∃ d', (change.apply d store).1 = .ok d') ↔
        change.inRange d.length = true ∧
        (∀ x, change.given = some x → c.memberKinds.contains x.kind = true) ∧
        d.widthWith (change.on (d.members.map View.green)) < Width.limit) ∧
      ∀ d', (change.apply d store).1 = .ok d' →
        ∀ x y, w.Live x → y.Within d'.view.top.green → x.id = y.id → x = y) ∧
    ∀ x, changes = [.append x] → ∀ (w : Workspace) (store : Store),
      (Change.remove c.length).Proper w store d →
      ∃ d', ((Change.remove c.length).apply d store).1 = .ok d' ∧
        d'.view.green.sameValue v.green = true := by
  have hkind : v.kind.isCollection = true := by
    by_cases h : v.kind.isCollection = true
    · exact h
    · rw [ofView?, if_neg h] at hc
      cases hc
  obtain rfl : ⟨v⟩ = c := by
    rw [ofView?, if_pos hkind] at hc
    exact Option.some.inj hc
  obtain ⟨r, members, L, hknows, hself⟩ := exists_changeable hw hg hvalid hv hnode hkind hpresent
  have hstands := hchanges.stands hself
  have hd := hstands.changeable hself
  rw [hself.map_members, hd.map_members, hd.length_eq, hself.length_eq, hself.memberKinds_eq]
  refine ⟨rfl, ?_, ?_, ?_⟩
  · have hedited := (View.part_whole hself.placed hknows).edited hself.placed hknows
      hstands.replaced
      (show d.view.green.text.toList = [] ++ (d.view.green.text.toList ++ []) by simp)
    have htexts : d.members.map View.text = (changes.foldl Change.on L).map Green.text := by
      rw [← hd.map_members, List.map_map]
      rfl
    rwa [String.ofList_toList, hd.lists.text_eq, ← htexts] at hedited
  · intro w store change hproper
    obtain ⟨hok, hresult⟩ := hproper.outcome hd
    refine ⟨hok.trans ?_, fun d' hd' => (hresult d' hd').2⟩
    rw [Bool.and_eq_true, and_assoc, Option.all_eq_true]
  · rintro x rfl w store hproper
    obtain ⟨hok, hresult⟩ := hproper.outcome hd
    have hback : (Change.remove L.length).on ([Change.append x].foldl Change.on L) = L := by
      simp [Change.on, List.eraseIdx_eq_take_drop_succ]
    rw [hback] at hok hresult
    -- Around the collection nothing has changed, so the tree gets as wide as it was at first.
    have hwidth : d.widthWith L = v.top.width := by
      obtain ⟨r', hsound⟩ := hproper.reachable.exists_sound
      rw [hd.widthWith_eq (hsound.knows hproper.live), hstands.around.before_eq,
        hstands.around.after_eq, ← hself.widthWith_eq hknows, hself.widthWith_self hknows]
    obtain ⟨d', hd'⟩ := hok.mpr ⟨by simp [Change.inRange, Change.given, Change.on],
      hwidth ▸ r.width_lt hknows⟩
    refine ⟨d', hd', ?_⟩
    have hlists := (hstands.trans (hresult d' hd').1).lists
    exact hlists.sameValue hself.lists

open Scene

/-- In the tree of `let` as a file with one item that fits nowhere, the item is added once more, and
the second one is taken away again. -/
theorem members_after_changes_item :
    ∃ (w w' : Workspace) (store : Store) (g x : Green) (v : View) (c d d' : Collection),
      w.Reachable ∧ w.Live g ∧ (View.root 0 g).isValid = true ∧
      (View.root 0 g).descend? [0] = some v ∧ v.isNode = true ∧ ofView? v = some c ∧
      v.isMissing = false ∧ c.Becomes [.append x] d ∧ (Change.remove c.length).Proper w' store d ∧
      x.text = "let" ∧ c.members.map View.green = [x] ∧ d.members.map View.green = [x, x] ∧
      ((Change.remove c.length).apply d store).1 = .ok d' ∧
      d'.view.green.sameValue v.green = true := by
  let items := branch 5 .itemList [some strayItem, some strayItem]
  let v : View := .child (.root 0 strayFile) 0 0 strayItems
  let v' : View := .child (.root 0 (branch 6 .sourceFile [some items, some (word 3 .eof "")])) 0 0
    items
  obtain ⟨s₁, s₂, hsplice, hreplace⟩ : ∃ s₁ s₂,
      strayItems.spliceSlots 1 1 [some strayItem] (ofTrees [strayFile]).store = (.ok items, s₁) ∧
      v.replaceWith items s₁ = (.ok v', s₂) := ⟨_, _, rfl, rfl⟩
  have hw : (ofTrees [strayFile]).workspace.Reachable := reachable_ofTrees rfl
  have hw₁ : (workspace ⟨s₁, _⟩).Reachable :=
    reachable_of_ok hw (.spliceSlots strayItems 1 1 [some strayItem]) (inUse_of_found rfl)
      (Alloc.map_eq_of_ok hsplice)
  have hw₂ : (workspace ⟨s₂, _⟩).Reachable :=
    reachable_of_ok hw₁ (.replaceWith v items) (inUse_of_found rfl) (Alloc.map_eq_of_ok hreplace)
  have hg : (ofTrees [strayFile]).workspace.Live strayFile := live_of_found rfl
  have hchanges : Becomes ⟨v⟩ [.append strayItem] ⟨v'⟩ := by
    have hrun : Change.apply ⟨v⟩ (.append strayItem) (ofTrees [strayFile]).store = (.ok ⟨v'⟩, s₂) :=
      (Alloc.bind_eq_of_ok hsplice).trans (Alloc.bind_eq_of_ok hreplace)
    refine .change .nil ⟨hw, store_mem _, hg, ?_⟩ (congrArg Prod.fst hrun)
    rintro _ ⟨rfl⟩
    exact live_of_found rfl
  have hremove : (Change.remove 1).Proper _ s₂ ⟨v'⟩ :=
    ⟨hw₂, store_mem _, live_top .., fun _ hx => by cases hx⟩
  have hvalid : (View.root 0 strayFile).isValid = true := by decide +kernel
  have htext : strayItem.text = "let" := Green.text_eq_join _
  have hfound : (View.root 0 strayFile).descend? [0] = some v := rfl
  obtain ⟨hlist, -, -, hback⟩ :=
    members_after_changes hw hg hvalid hfound rfl rfl rfl hchanges
  obtain ⟨d', hd', hsame⟩ := hback strayItem rfl _ s₂ hremove
  exact ⟨_, _, s₂, strayFile, strayItem, v, ⟨v⟩, ⟨v'⟩, d', hw, hg, hvalid, hfound, rfl, rfl, rfl,
    hchanges, hremove, htext, rfl, hlist, hd', hsame⟩

end Collection

end Verbatim
