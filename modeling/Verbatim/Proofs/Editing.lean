import Verbatim.Proofs.Refilling
import Verbatim.Proofs.Scenes

/-!
# Edits in place

An edit of a view makes its ancestors anew, one after another up to the root. What stands apart from
the edited place is found where it was, the text changes only there, and the edited view stands
where it stood. By induction over the ancestors this is so for a view of any depth, and an edit
fails just if a collection on the way does not take what is put into it, or if the tree gets too
wide.
-/

namespace Verbatim

namespace View

/-- Whether each collection above a view takes what is put there, if an element of the kind is put
in the place of the view. -/
def accepts : View → Kind → Bool
  | root .., _ => true
  | child parent _ _ _, kind => parent.kind.takes kind && parent.accepts parent.kind

/-- The characters of the tree of a view with others in the place of the view. -/
def charsWith (v : View) (chars : List Char) : List Char := v.before ++ (chars ++ v.after)

/-- Replacing a view replaces a slot of its parent. -/
theorem charsWith_child (parent : View) (index offset : Nat) (g x : Green) :
    (child parent index offset g).charsWith x.text.toList =
      parent.charsWith (parent.green.charsWith index (some x)) := by
  simp [charsWith, before, after, Green.charsWith, Green.charsOf_some_cons]

theorem Placed.green_descend?_top {v : View} (hv : v.Placed) (path : List Nat) :
    v.top.green.descend? (v.path ++ path) = v.green.descend? path := by
  rw [Green.descend?_append, ← map_green_descend?, hv.descend?_top]
  rfl

/-- What is in the place of a view in a tree that was made anew around it. -/
structure Replaced (v : View) (x : Green) (u : View) : Prop where
  green_eq : u.green = x
  placed : u.Placed
  path_eq : u.path = v.path
  offset_eq : u.offset = v.offset
  text_eq : u.top.text.toList = v.charsWith x.text.toList
  /-- What is neither an ancestor of the view nor in it stands where it stood. -/
  kept : ∀ q g, v.top.green.descend? q = some g → ¬ q <+: v.path → ¬ v.path <+: q →
    u.top.green.descend? q = some g

/-- One ancestor is made anew, then those above it. -/
theorem Replaced.child {parent u : View} {index offset : Nat} {g c x : Green}
    (hv : (child parent index offset g).Placed) (hc : parent.green.IsRefilled index (some x) c)
    (h : parent.Replaced c u) :
    (View.child parent index offset g).Replaced x (.child u index offset x) := by
  obtain ⟨hparent, hslot, hoffset⟩ := placed_child.mp hv
  have hindex : index < parent.green.slots.length := (List.getElem?_eq_some_iff.mp hslot).1
  refine ⟨rfl, ?placed, ?path_eq, rfl, ?text_eq, ?kept⟩
  case placed =>
    refine placed_child.mpr ⟨h.placed, ?_, ?_⟩
    · rw [h.green_eq]
      exact hc.slots.getElem?_self hindex
    · rw [hoffset, h.offset_eq, h.green_eq, hc.slots.slotsWidth_take hindex]
  case path_eq => rw [path, path, h.path_eq]
  case text_eq => rw [charsWith_child, ← hc.toList_text, ← h.text_eq, top]
  case kept =>
    intro q d hd hprefix hbelow
    rw [path] at hprefix hbelow
    by_cases hq : parent.path <+: q
    · -- The way leads through the parent and on through another slot of it.
      obtain ⟨rest, rfl⟩ := hq
      cases rest with
      | nil => exact absurd (by simp) hprefix
      | cons j rest =>
        have hj : j ≠ index := by
          rintro rfl
          exact hbelow ⟨rest, by simp⟩
        have hd : parent.green.descend? (j :: rest) = some d := by
          rwa [top, hparent.green_descend?_top] at hd
        have hd := hc.descend? hindex hj hd
        rw [if_neg fun hremoves => by cases hremoves.1.2] at hd
        rw [top, ← h.path_eq, h.placed.green_descend?_top, h.green_eq, hd]
    · exact h.kept q d hd (fun hup => hprefix (hup.trans (List.prefix_append ..))) hq

open Alloc

variable {e : Site} {v : View} {x : Green}

/-- Another element is put in the place of a view, unless something above does not accept it or the
tree gets too wide. -/
theorem yields_replaceWith (hv : v.Placed) (htop : e.Knows v.top.green) (hx : e.Knows x) :
    Yields (v.replaceWith x) e
      (fun u f => (f.Knows u.top.green ∧ v.Replaced x u) ∧ v.accepts x.kind = true)
      (v.accepts x.kind = false ∨ Width.limit ≤ Text.byteLength (v.charsWith x.text.toList)) := by
  induction v generalizing e x with
  | root store g =>
    refine .pure ⟨⟨hx, rfl, trivial, rfl, rfl, ?_, ?_⟩, rfl⟩
    · simp [charsWith, before, after, top, text, green]
    · exact fun q _ _ _ hbelow => absurd (List.nil_prefix) hbelow
  | child parent index offset g ih =>
    obtain ⟨hparent, hslot, -⟩ := placed_child.mp hv
    have hindex : index < parent.green.slots.length := (List.getElem?_eq_some_iff.mp hslot).1
    have hknows : e.Knows parent.green := Registry.Knows.of_within htop hparent.within
    have hslots : e.KnowsAll [some x] := fun c hc =>
      Option.some.inj (List.mem_singleton.mp hc) ▸ hx
    -- The new parent has the kind of the old one, so above it the same is accepted as before.
    rw [charsWith_child]
    refine (Green.yields_replaceSlot hknows hslots hindex).bind (fun hreason => ?_)
      fun c f hf hout => ?_
    · refine hreason.imp (fun hrefused => ?_) fun hwide => Nat.le_trans hwide ?_
      · rw [accepts, show parent.kind.takes x.kind = false from hrefused, Bool.false_and]
      · simp only [charsWith, Text.byteLength_append]
        omega
    · obtain ⟨⟨hc, hrefilled⟩, haccepts⟩ := hout
      have htakes : (child parent index offset g).accepts x.kind = parent.accepts c.kind := by
        rw [accepts, show parent.kind.takes x.kind = true from haccepts, Bool.true_and,
          hrefilled.kind_eq]
        rfl
      rw [htakes, ← hrefilled.toList_text]
      refine (ih hparent (htop.mono hf) hc).bind (fun h => h) fun u f' _ hout => ?_
      obtain ⟨⟨hu, hreplaced⟩, hup⟩ := hout
      exact .pure ⟨⟨hu, .child hv hrefilled hreplaced⟩, hup⟩

/-- A slot of a view is replaced, unless the view or something above it does not accept this or the
tree gets too wide. -/
theorem yields_replaceSlot {index : Nat} {slot : Slot} (hv : v.Placed) (htop : e.Knows v.top.green)
    (hslot : e.KnowsAll [slot]) (hindex : index < v.slotCount) :
    Yields (v.replaceSlot index slot) e
      (fun u f => (f.Knows u.top.green ∧
        ∃ c, v.green.IsRefilled index slot c ∧ v.Replaced c u) ∧
        (v.green.accepts slot && v.accepts v.kind) = true)
      ((v.green.accepts slot && v.accepts v.kind) = false ∨
        Width.limit ≤ Text.byteLength (v.charsWith (v.green.charsWith index slot))) := by
  have hknows : e.Knows v.green := Registry.Knows.of_within htop hv.within
  refine (Green.yields_replaceSlot hknows hslot hindex).bind (fun hreason => ?_)
    fun c f hf hout => ?_
  · refine hreason.imp (fun hrefused => by rw [hrefused, Bool.false_and])
      fun hwide => Nat.le_trans hwide ?_
    simp only [charsWith, Text.byteLength_append]
    omega
  · obtain ⟨⟨hc, hrefilled⟩, haccepts⟩ := hout
    rw [haccepts, Bool.true_and, ← hrefilled.toList_text, kind, ← hrefilled.kind_eq]
    refine (yields_replaceWith hv (htop.mono hf) hc).mono (fun u f' _ hout => ?_) fun h => h
    exact ⟨⟨hout.1.1, c, hrefilled, hout.1.2⟩, hout.2⟩

/-- What an edit does to the tree of a view: the bytes from `start` to `stop` give way to a text,
the view stands where it stood, and what is neither an ancestor of the view nor in it is kept. -/
structure Edited (v : View) (start stop : Nat) (text : String) (u : View) : Prop where
  text_eq : ∃ before after, Text.slice? v.top.text 0 start = some before ∧
    Text.slice? v.top.text stop v.top.width = some after ∧
    u.top.text = before ++ text ++ after
  path_eq : u.path = v.path
  offset_eq : u.offset = v.offset
  found : u.top.descend? v.path = some u
  kept : ∀ q x, v.top.descend? q = some x → ¬ q <+: v.path → ¬ v.path <+: q →
    ∃ y, u.top.descend? q = some y ∧ y.green = x.green

/-- A part of the text of a view, with what stands around it in the view, and where the part starts
and stops in the tree. -/
structure Part (v : View) (a part b : List Char) (start stop : Nat) : Prop where
  text_eq : v.text.toList = a ++ (part ++ b)
  start_eq : start = v.offset + Text.byteLength a
  stop_eq : stop = start + Text.byteLength part

section Part

variable {r : Registry} {a b old new : List Char} {start stop : Nat}

/-- The whole of a view is a part of it. -/
theorem part_whole (hv : v.Placed) (htop : r.Knows v.top.green) :
    v.Part [] v.text.toList [] v.offset (v.offset + v.width) where
  text_eq := by rw [List.nil_append, List.append_nil]
  start_eq := rfl
  stop_eq := congrArg (v.offset + ·) (htop.of_within hv.within).width_eq

/-- Where a slot of a view starts in its tree. -/
def slotStart (v : View) (index : Nat) : Nat :=
  v.offset + Green.slotsWidth (v.green.slots.take index)

/-- What stands in a slot of a view is a part of it. -/
theorem exists_part_slot {index : Nat} (hv : v.Placed) (htop : r.Knows v.top.green)
    (hindex : index < v.slotCount) :
    ∃ old, v.Part (Green.charsOf (v.green.slots.take index)) old
      (Green.charsOf (v.green.slots.drop (index + 1))) (v.slotStart index)
      (v.slotStart (index + 1)) := by
  have hslots : r.KnowsAll v.green.slots := (htop.of_within hv.within).knowsAll_slots
  have htake (n : Nat) : Green.slotsWidth (v.green.slots.take n) =
      Text.byteLength (Green.charsOf (v.green.slots.take n)) :=
    Registry.KnowsAll.slotsWidth_eq fun c hc => hslots c (List.mem_of_mem_take hc)
  have hslot : v.green.slots[index]? = some v.green.slots[index] := List.getElem?_eq_getElem hindex
  refine ⟨Green.charsOf [v.green.slots[index]], ?_, ?_, ?_⟩
  · rw [text, Green.toList_text_of_slots (Green.isNode_of_lt hindex), Green.charsOf_eq hslot]
  · rw [slotStart, htake]
  · rw [slotStart, slotStart, htake, htake, List.take_add_one, hslot, Green.charsOf_append,
      Text.byteLength_append, Nat.add_assoc]
    rfl

/-- The text of a tree around a part of a view. -/
theorem Part.toList_text_top (h : v.Part a old b start stop) (hv : v.Placed) :
    v.top.text.toList = (v.before ++ a) ++ (old ++ (b ++ v.after)) := by
  rw [hv.toList_text_top, h.text_eq]
  simp

/-- How wide a tree gets if a part of a view gives way to something else. -/
theorem Part.byteLength_charsWith (h : v.Part a old b start stop) (hv : v.Placed)
    (htop : r.Knows v.top.green) (new : List Char) :
    Text.byteLength (v.charsWith (a ++ (new ++ b))) =
      start + Text.byteLength new + (v.top.width - stop) := by
  have hwidth : v.top.width = Text.byteLength v.top.text.toList := htop.width_eq
  have hoffset := hv.offset_eq htop
  have hstart := h.start_eq
  have hstop := h.stop_eq
  rw [h.toList_text_top hv] at hwidth
  simp only [charsWith, Text.byteLength_append] at hwidth ⊢
  omega

/-- An element in the place of a view that differs from it in one part of the text. -/
theorem Part.edited {u : View} (h : v.Part a old b start stop) (hv : v.Placed)
    (htop : r.Knows v.top.green) (hu : v.Replaced x u) (hx : x.text.toList = a ++ (new ++ b)) :
    v.Edited start stop (String.ofList new) u := by
  have htext := h.toList_text_top hv
  have hwidth : v.top.width = Text.byteLength v.top.text.toList := htop.width_eq
  have hstart : start = Text.byteLength (v.before ++ a) := by
    rw [h.start_eq, hv.offset_eq htop, Text.byteLength_append]
  have hstop : stop = Text.byteLength ((v.before ++ a) ++ old) := by
    rw [h.stop_eq, hstart, ← Text.byteLength_append]
  refine ⟨⟨.ofList (v.before ++ a), .ofList (b ++ v.after), ?before, ?after, ?text⟩, hu.path_eq,
    hu.offset_eq, ?found, ?kept⟩
  case before =>
    have hslice := Text.slice?_append (x := []) htext
    rwa [Text.byteLength_nil, Nat.zero_add, ← hstart] at hslice
  case after =>
    have hsplit : v.top.text.toList = ((v.before ++ a) ++ old) ++ ((b ++ v.after) ++ []) := by
      rw [htext]
      simp
    have hslice := Text.slice?_append hsplit
    rw [htext, ← List.append_assoc, Text.byteLength_append, ← hstop] at hwidth
    rwa [← hstop, ← hwidth] at hslice
  case text =>
    apply String.toList_inj.mp
    rw [hu.text_eq, hx]
    simp [charsWith]
  case found => rw [← hu.path_eq, hu.placed.descend?_top]
  case kept =>
    intro q y hy hprefix hbelow
    have hgreen : v.top.green.descend? q = some y.green := by
      rw [← map_green_descend?, hy, Option.map_some]
    have hfound := hu.kept q y.green hgreen hprefix hbelow
    rwa [← map_green_descend?, Option.map_eq_some_iff] at hfound

end Part

/-- What replacing a slot does to the tree of a view. Besides what stands apart from the view, its
other slots keep what is in them; if a member of a collection is taken away, those behind it move
up. -/
structure SlotReplaced (v : View) (index : Nat) (slot : Slot) (u : View) : Prop
    extends v.Edited (v.slotStart index) (v.slotStart (index + 1)) (slot.elim "" Green.text) u where
  kind_eq : u.kind = v.kind
  holds : ∀ x, slot = some x → (u.slot? index).map green = some x
  others : ∀ j q x, j ≠ index → v.top.descend? (v.path ++ j :: q) = some x →
    ∃ y, u.top.descend? (v.path ++ (if v.green.Removes slot ∧ index < j then j - 1 else j) :: q) =
      some y ∧ y.green = x.green

section Outcomes

variable {u : View} {c : Green} {index : Nat} {slot : Slot}

/-- A tree that was made anew is narrow enough. -/
theorem Replaced.byteLength_lt (h : v.Replaced x u) (hu : e.Knows u.top.green) :
    Text.byteLength (v.charsWith x.text.toList) < Width.limit := by
  rw [← h.text_eq]
  exact (Registry.Knows.width_eq hu).symm ▸ e.registry.width_lt hu

variable (hv : v.Placed) (htop : e.Knows v.top.green)

include hv htop

theorem Replaced.slotReplaced (h : v.Replaced c u) (hindex : index < v.slotCount)
    (hc : v.green.IsRefilled index slot c) : v.SlotReplaced index slot u := by
  obtain ⟨old, hpart⟩ := exists_part_slot hv htop hindex
  have hslot : String.ofList (Green.charsOf [slot]) = slot.elim "" Green.text := by
    cases slot with
    | none => rfl
    | some x => simp [Green.charsOf_some_cons]
  refine ⟨hslot ▸ hpart.edited hv htop h hc.toList_text, ?kind_eq, ?holds, ?others⟩
  case kind_eq => rw [kind, h.green_eq, hc.kind_eq, kind]
  case holds =>
    rintro x rfl
    rw [slot?_eq, h.green_eq, hc.slots.getElem?_self hindex]
    rfl
  case others =>
    intro j q x hj hx
    have hx : v.green.descend? (j :: q) = some x.green := by
      rw [← hv.green_descend?_top, ← map_green_descend?, hx, Option.map_some]
    have hfound := hc.descend? hindex hj hx
    rwa [← h.green_eq, ← h.placed.green_descend?_top, h.path_eq, ← map_green_descend?,
      Option.map_eq_some_iff] at hfound

/-- Just when a slot can be replaced. -/
theorem replaceSlot_ok_iff (hslot : e.KnowsAll [slot]) (hindex : index < v.slotCount) :
    (∃ u, (v.replaceSlot index slot e.store).1 = .ok u) ↔
      (v.green.accepts slot && v.accepts v.kind) = true ∧
        v.slotStart index + slot.elim 0 Green.width + (v.top.width - v.slotStart (index + 1)) <
          Width.limit := by
  obtain ⟨old, hpart⟩ := exists_part_slot hv htop hindex
  have hwidth : Text.byteLength (Green.charsOf [slot]) = slot.elim 0 Green.width :=
    (Registry.KnowsAll.slotsWidth_eq hslot).symm
  have hchars : Text.byteLength (v.charsWith (v.green.charsWith index slot)) =
      v.slotStart index + slot.elim 0 Green.width + (v.top.width - v.slotStart (index + 1)) := by
    rw [Green.charsWith, hpart.byteLength_charsWith hv htop, hwidth]
  rw [← hchars]
  refine (yields_replaceSlot hv htop hslot hindex).exists_ok_iff ?_
  rintro u f ⟨⟨hu, c, hc, hreplaced⟩, haccepts⟩
  exact ⟨haccepts, hc.toList_text ▸ hreplaced.byteLength_lt hu⟩

/-- Just when an element can be put in the place of a view. -/
theorem replaceWith_ok_iff (hx : e.Knows x) :
    (∃ u, (v.replaceWith x e.store).1 = .ok u) ↔ v.accepts x.kind = true ∧
      v.offset + x.width + (v.top.width - (v.offset + v.width)) < Width.limit := by
  have hchars := (part_whole hv htop).byteLength_charsWith hv htop x.text.toList
  rw [List.nil_append, List.append_nil, ← Registry.Knows.width_eq hx] at hchars
  rw [← hchars]
  refine (yields_replaceWith hv htop hx).exists_ok_iff ?_
  rintro u f ⟨⟨hu, hreplaced⟩, haccepts⟩
  exact ⟨haccepts, hreplaced.byteLength_lt hu⟩

end Outcomes

end View

namespace Workspace

variable {w : Workspace} {s : Store}

/-- In every workspace that can be reached, a slot of a view can be replaced just if the view takes
what is put there, each collection above takes what it holds on the way to the view, and the tree
stays narrow enough; an element can be put in the place of a view just if each collection above
takes what it would hold, and the tree stays narrow enough. Then only that place changes. -/
theorem Reachable.edit_changes_only_place (hw : w.Reachable) (hs : s ∈ w.stores) {tag : Nat}
    {g : Green} (hg : w.Live g) {path : List Nat} {v : View}
    (hv : (View.root tag g).descend? path = some v) :
    (v.top = .root tag g ∧ v.path = path) ∧
    (∀ (index : Nat) (slot : Slot), index < v.slotCount → (∀ x, slot = some x → w.Live x) →
      ((∃ u, (v.replaceSlot index slot s).1 = .ok u) ↔
        (v.green.accepts slot && v.accepts v.kind) = true ∧
          v.slotStart index + slot.elim 0 Green.width +
            (v.top.width - v.slotStart (index + 1)) < Width.limit) ∧
      ∀ u, (v.replaceSlot index slot s).1 = .ok u → v.SlotReplaced index slot u) ∧
    ∀ x, w.Live x →
      ((∃ u, (v.replaceWith x s).1 = .ok u) ↔ v.accepts x.kind = true ∧
        v.offset + x.width + (v.top.width - (v.offset + v.width)) < Width.limit) ∧
      ∀ u, (v.replaceWith x s).1 = .ok u →
        v.Edited v.offset (v.offset + v.width) x.text u ∧ u.green = x := by
  obtain ⟨r, h⟩ := hw.exists_sound
  obtain ⟨hplaced, htop, hpath⟩ := View.Placed.of_descend? (v := .root tag g) trivial hv
  have hknows : (h.site hs).Knows v.top.green := by
    rw [htop]
    exact h.knows hg
  refine ⟨⟨htop, hpath⟩, ?_, ?_⟩
  · intro index slot hindex hslot
    have hslots : (h.site hs).KnowsAll [slot] := fun c hc =>
      h.knows (hslot c (List.mem_singleton.mp hc).symm)
    refine ⟨View.replaceSlot_ok_iff hplaced hknows hslots hindex, fun u hu => ?_⟩
    obtain ⟨f, ⟨-, c, hc, hreplaced⟩, -⟩ :=
      (View.yields_replaceSlot hplaced hknows hslots hindex).of_ok hu
    exact hreplaced.slotReplaced hplaced hknows hindex hc
  · intro x hx
    have hx : (h.site hs).Knows x := h.knows hx
    refine ⟨View.replaceWith_ok_iff hplaced hknows hx, fun u hu => ?_⟩
    obtain ⟨f, ⟨-, hreplaced⟩, -⟩ := (View.yields_replaceWith hplaced hknows hx).of_ok hu
    have htext : x.text.toList = [] ++ (x.text.toList ++ []) := by
      rw [List.nil_append, List.append_nil]
    have hedited := (View.part_whole hplaced hknows).edited hplaced hknows hreplaced htext
    rw [String.ofList_toList] at hedited
    exact ⟨hedited, hreplaced.green_eq⟩

open Scene

/-- A list of two statements, both the same placeholder for a declaration. -/
def undeclared : Green := branch 2 .stmtList [some (hole 0 .letDecl), some (hole 0 .letDecl)]

/-- The second of two placeholders for a declaration gets a keyword, and gives way to the first. -/
theorem Reachable.edit_changes_only_place_keyword :
    ∃ (w : Workspace) (s : Store) (g a x : Green) (v u u' : View),
      w.Reachable ∧ s ∈ w.stores ∧ w.Live g ∧ w.Live a ∧ w.Live x ∧ x.text = "let" ∧
        (View.root 0 g).descend? [1] = some v ∧ v.isMissing = true ∧ 0 < v.slotCount ∧
        (v.replaceSlot 0 (some x) s).1 = .ok u ∧ v.SlotReplaced 0 (some x) u ∧
        (v.replaceWith a s).1 = .ok u' ∧
        v.Edited v.offset (v.offset + v.width) a.text u' ∧ u'.green = a := by
  let c := ofTrees [undeclared, word 1 .letKw "let"]
  have hw : c.workspace.Reachable := reachable_ofTrees rfl
  have hg : c.workspace.Live undeclared := live_of_found rfl
  have hx : c.workspace.Live (word 1 .letKw "let") := live_of_found rfl
  have ha : c.workspace.Live (hole 0 .letDecl) := live_of_found rfl
  have htext : (word 1 .letKw "let").text = "let" := Green.text_eq_join _
  let v := View.child (.root 0 undeclared) 1 0 (hole 0 .letDecl)
  have hv : (View.root 0 undeclared).descend? [1] = some v := rfl
  obtain ⟨-, hslot, hwhole⟩ := hw.edit_changes_only_place c.store_mem hg hv
  have hindex : 0 < v.slotCount := by decide
  obtain ⟨hok, hreplaced⟩ := hslot 0 (some (word 1 .letKw "let")) hindex
    (fun y hy => Option.some.inj hy ▸ hx)
  obtain ⟨u, hu⟩ := hok.mpr ⟨by decide, by decide⟩
  obtain ⟨hok', hedited⟩ := hwhole (hole 0 .letDecl) ha
  obtain ⟨u', hu'⟩ := hok'.mpr ⟨by decide, by decide⟩
  exact ⟨_, c.store, undeclared, hole 0 .letDecl, word 1 .letKw "let", v, u, u', hw, c.store_mem,
    hg, ha, hx, htext, hv, rfl, hindex, hu, hreplaced u hu, hu', hedited u' hu'⟩

end Workspace

end Verbatim
