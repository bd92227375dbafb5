import Verbatim.Proofs.Bounded
import Verbatim.Proofs.Scenes

/-!
# Paths and offsets

A view that is reached in a tree, however one moved about, is found by its path, and its path tells
it from all others. It starts as many bytes into the text as the tokens have that come before it,
and the text between its ends is its own.
-/

namespace Verbatim

namespace Green

/-- Slots are as wide as the tokens in them, if this is so of what stands in them. -/
theorem slotsWidth_eq_leavesOf {slots : List Slot}
    (h : ∀ c, some c ∈ slots → c.width = sumOf (fun t => t.data.width) c.leaves) :
    slotsWidth slots = sumOf (fun t => t.data.width) (leavesOf slots) := by
  induction slots with
  | nil => rfl
  | cons slot slots ih =>
    have htail := ih fun c hc => h c (List.mem_cons_of_mem _ hc)
    rw [slotsWidth] at htail
    cases slot with
    | none => simpa [slotsWidth, leavesOf] using htail
    | some c => simp [slotsWidth, leavesOf, htail, h c List.mem_cons_self]

/-- A genuine element is as wide as its tokens. -/
theorem Genuine.width_eq_leaves {g : Green} (h : g.Genuine) :
    g.width = sumOf (fun t => t.data.width) g.leaves := by
  induction h with
  | token _ => simp [width, leaves]
  | node _ _ _ ih => exact slotsWidth_eq_leavesOf ih

end Green

namespace View

variable {r v u : View}

/-- The width of the tokens among some views. -/
def tokenWidth (views : List View) : Nat := sumOf width (views.filter fun d => !d.isNode)

theorem tokenWidth_append (a b : List View) :
    tokenWidth (a ++ b) = tokenWidth a + tokenWidth b := by
  simp [tokenWidth]

/-- Slots are as wide as the tokens that are entered in them. -/
theorem tokenWidth_entriesIn (parent : View) (index offset : Nat) {slots : List Slot}
    (h : Green.GenuineAll slots) :
    tokenWidth (entriesIn (fun _ => false) parent index offset slots) =
      Green.slotsWidth slots := by
  rw [Green.slotsWidth_eq_leavesOf fun c hc => (h c hc).width_eq_leaves]
  have hgreen := congrArg (sumOf Green.width) (filter_entriesIn parent index offset slots)
  rw [sumOf_map, sumOf_map] at hgreen
  exact hgreen

theorem entriesIn_append (closed : View → Bool) (parent : View) (index offset : Nat)
    (a b : List Slot) :
    entriesIn closed parent index offset (a ++ b) = entriesIn closed parent index offset a ++
      entriesIn closed parent (index + a.length) (offset + Green.slotsWidth a) b := by
  induction a generalizing index offset with
  | nil => rfl
  | cons slot a ih =>
    have hindex : index + 1 + a.length = index + (a.length + 1) := by omega
    cases slot with
    | none =>
      rw [List.cons_append, entriesIn, entriesIn, ih, hindex, List.length_cons]
      simp [Green.slotsWidth]
    | some g =>
      rw [List.cons_append, entriesIn, entriesIn, ih, hindex, List.length_cons, List.append_assoc]
      simp [Green.slotsWidth, Nat.add_assoc]

theorem exists_descendants_eq_cons (v : View) : ∃ below, v.descendants = v :: below :=
  ⟨_, v.descendants_eq_cons⟩

/-- Everything below a view is entered in one piece, after tokens of as many bytes as stand before
the view. -/
theorem Stands.exists_descendants (h : Stands r v) (hr : r.green.Genuine) :
    ∃ before after, r.descendants = before ++ (v.descendants ++ after) ∧
      v.offset = tokenWidth before := by
  induction v with
  | root store g => exact ⟨[], [], by rw [← h.top_eq]; simp [top], rfl⟩
  | child parent index offset g ih =>
    obtain ⟨hparent, hslot, hoffset⟩ := placed_child.mp h.placed
    have hstands : Stands r parent := ⟨hparent, h.top_eq⟩
    obtain ⟨before, after, hbefore, hwidth⟩ := ih hstands
    obtain ⟨hlt, hget⟩ := List.getElem?_eq_some_iff.mp hslot
    have hslots : parent.green.slots =
        parent.green.slots.take index ++ some g :: parent.green.slots.drop (index + 1) := by
      rw [← hget, ← List.drop_eq_getElem_cons hlt, List.take_append_drop]
    have hgenuine : Green.GenuineAll (parent.green.slots.take index) := fun c hc =>
      (hstands.genuine hr).genuineAll_slots c (List.mem_of_mem_take hc)
    have hlength : (parent.green.slots.take index).length = index := by
      rw [List.length_take]
      omega
    have hentries : parent.descendants = parent ::
        (entriesIn (fun _ => false) parent 0 parent.offset (parent.green.slots.take index) ++
          ((child parent index offset g).descendants ++
            entriesIn (fun _ => false) parent (index + 1) (offset + g.width)
              (parent.green.slots.drop (index + 1)))) := by
      rw [descendants_of_isNode (Green.isNode_of_lt hlt)]
      conv => lhs; rw [hslots]
      rw [entriesIn_append, hlength, Nat.zero_add, entriesIn, ← hoffset, descendants_eq]
      rfl
    refine ⟨before ++ parent ::
        entriesIn (fun _ => false) parent 0 parent.offset (parent.green.slots.take index),
      entriesIn (fun _ => false) parent (index + 1) (offset + g.width)
        (parent.green.slots.drop (index + 1)) ++ after, ?_, ?_⟩
    · rw [hbefore, hentries]
      simp only [List.append_assoc, List.cons_append]
    · have hparentWidth : tokenWidth [parent] = 0 := by
        simp [tokenWidth, isNode, Green.isNode_of_lt hlt]
      rw [← List.singleton_append, tokenWidth_append, tokenWidth_append, hparentWidth, Nat.zero_add,
        tokenWidth_entriesIn parent 0 parent.offset hgenuine, ← hwidth]
      exact hoffset

/-- A view is found by its path. -/
theorem Stands.descend?_path (h : Stands r v) : r.descend? v.path = some v :=
  h.top_eq ▸ h.placed.descend?_top

theorem Stands.eq_of_path (hv : Stands r v) (hu : Stands r u) (h : v.path = u.path) : v = u := by
  have hfound := hv.descend?_path
  rw [h, hu.descend?_path] at hfound
  exact (Option.some.inj hfound).symm

theorem path_eq_of_same (h : v.same u = true) : v.path = u.path := by
  induction v generalizing u with
  | root store g =>
    cases u with
    | root store' g' => rfl
    | child parent index offset g' => cases h
  | child parent index offset g ih =>
    cases u with
    | root store' g' => cases h
    | child parent' index' offset' g' =>
      simp only [same, Bool.and_eq_true, beq_iff_eq] at h
      rw [path, path, ih h.2, h.1.2]

theorem same_self (v : View) : v.same v = true := by
  induction v with
  | root store g => simp [same, Green.same]
  | child parent index offset g ih => simp [same, Green.same, ih]

/-- Two views of a tree are the same just if their paths are. -/
theorem Stands.same_iff (hv : Stands r v) (hu : Stands r u) :
    v.same u = true ↔ v.path = u.path := by
  refine ⟨path_eq_of_same, fun h => ?_⟩
  rw [hv.eq_of_path hu h]
  exact same_self u

/-- The indices on the way to a view are less than the numbers of slots in the tree. -/
theorem Stands.path_lt (h : Stands r v) {limit : Nat}
    (hcounts : ∀ x : Green, x.Within r.green → x.slots.length < limit) :
    ∀ i ∈ v.path, i < limit := by
  induction v with
  | root store g => exact fun i hi => absurd hi List.not_mem_nil
  | child parent index offset g ih =>
    obtain ⟨hparent, hslot, -⟩ := placed_child.mp h.placed
    have hstands : Stands r parent := ⟨hparent, h.top_eq⟩
    intro i hi
    rcases List.mem_append.mp hi with hi | hi
    · exact ih hstands i hi
    · obtain rfl := List.mem_singleton.mp hi
      have hcount := hcounts parent.green hstands.within
      exact Nat.lt_trans (List.getElem?_eq_some_iff.mp hslot).1 hcount

/-- The text of a tree between the ends of a view is the text of the view. -/
theorem Stands.slice?_text (h : Stands r v) {registry : Registry} (hr : registry.Knows r.green) :
    Text.slice? r.text v.span.start v.span.stop = some v.text := by
  have htop : registry.Knows v.top.green := h.top_eq ▸ hr
  have htext := h.placed.toList_text_top
  rw [h.top_eq] at htext
  have hwidth : v.width = Text.byteLength v.text.toList :=
    (htop.of_within h.placed.within).width_eq
  have hslice := Text.slice?_append htext
  rwa [← h.placed.offset_eq htop, ← hwidth, String.ofList_toList] at hslice

end View

namespace Workspace

open Scene

/-- In every tree that is in use in a workspace that can be reached, and in which no node has 2^32
slots or more, wherever one gets by moving about: nothing that is computed there leaves 32 bits, nor
does an index on the way. The element is found by its path, and its path tells it from the others.
It starts after as many bytes as the tokens before it have, and the text between its ends is its
own. -/
theorem Reachable.reached_where_path_says {w : Workspace} (hw : w.Reachable) {g : Green}
    (hg : w.Live g) (hcounts : ∀ x : Green, x.Within g → x.slots.length < UInt32.size) {tag : Nat}
    {v : View} (hv : (View.root tag g).Reaches v) :
    (v.Fits ∧ ∀ i ∈ v.path, i < UInt32.size) ∧
    (View.root tag g).descend? v.path = some v ∧
    (∃ before after, (View.root tag g).descendants = before ++ v :: after ∧
      v.offset = sumOf View.width (before.filter fun d => !d.isNode)) ∧
    Text.slice? (View.root tag g).text v.span.start v.span.stop = some v.text ∧
    ∀ u, (View.root tag g).Reaches u → (v.same u = true ↔ v.path = u.path) := by
  obtain ⟨registry, hsound⟩ := hw.exists_sound
  have hgenuine : (View.root tag g).green.Genuine := hw.genuine.of_live hg
  have hroot : View.Stands (.root tag g) (.root tag g) := ⟨trivial, rfl⟩
  have hstands := hv.stands hroot hgenuine
  refine ⟨⟨hstands.fits hgenuine, hstands.path_lt hcounts⟩, hstands.descend?_path, ?_,
    hstands.slice?_text (hsound.knows hg), fun u hu => ?_⟩
  · obtain ⟨before, after, hsplit, hoffset⟩ := hstands.exists_descendants hgenuine
    obtain ⟨below, hbelow⟩ := v.exists_descendants_eq_cons
    rw [hbelow] at hsplit
    exact ⟨before, below ++ after, hsplit, hoffset⟩
  · exact hstands.same_iff (hu.stands hroot hgenuine)

/-- The tree of `letb`, where the keyword is followed by an empty slot, by a name that is missing
and by a name that is not. -/
def nameless : Green :=
  branch 3 .letDecl
    [some (word 0 .letKw "let"), none, some (gap 1 .ident), some (word 2 .ident "b")]

/-- From the root one gets to the missing name by going to the last child and from there to the
sibling before it. -/
theorem Reachable.reached_where_path_says_missing :
    ∃ (w : Workspace) (g : Green) (v : View), w.Reachable ∧ w.Live g ∧
      (∀ x : Green, x.Within g → x.slots.length < UInt32.size) ∧ (View.root 0 g).Reaches v ∧
      v.isMissing = true ∧ v.path = [2] ∧ v.Fits ∧
      Text.slice? (View.root 0 g).text v.span.start v.span.stop = some "" ∧
      (View.root 0 g).descend? [2] = some v := by
  have hw : (ofTrees [nameless]).workspace.Reachable := reachable_ofTrees rfl
  have hg : (ofTrees [nameless]).workspace.Live nameless := live_of_found rfl
  have hcounts (x : Green) (hx : x.Within nameless) : x.slots.length < UInt32.size :=
    of_decide_eq_true (of_within (p := fun x => x.slots.length < UInt32.size) (by decide) hx)
  let r := View.root 0 nameless
  let v := View.child r 2 3 (gap 1 .ident)
  have hlast : r.lastChild? = some (.child r 3 3 (word 2 .ident "b")) := rfl
  have hprev : (View.child r 3 3 (word 2 .ident "b")).prevSibling? = some v := rfl
  have hv : r.Reaches v := .move (.move .refl (.lastChild hlast)) (.prevSibling hprev)
  obtain ⟨⟨hfits, -⟩, hpath, -, hslice, -⟩ := hw.reached_where_path_says hg hcounts hv
  have htext : v.text = "" := Green.text_eq_join _
  exact ⟨_, nameless, v, hw, hg, hcounts, hv, rfl, rfl, hfits, htext ▸ hslice, hpath⟩

end Workspace

end Verbatim
