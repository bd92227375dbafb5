import Verbatim.Validation
import Verbatim.Proofs.Entering
import Verbatim.Proofs.Genuine
import Verbatim.Proofs.Scenes

/-!
# What elements remember is right

The width that an element remembers is the number of bytes of its text, and it remembers an error
exactly if there is one. A placeholder has no text. So validation never finds a width that is wrong
or a placeholder with text: it finds nothing but nodes that break their layout.
-/

namespace Verbatim

namespace Green

variable {g : Green}

/-- A genuine element is as wide as its text. -/
theorem Genuine.width_eq (h : g.Genuine) : g.width = Text.byteLength g.text.toList := by
  induction h with
  | token _ =>
    simp [width, TokenData.width, toList_text, leaves, Text.byteLength_toList]
  | node _ _ _ ih =>
    rw [toList_text_of_slots rfl]
    exact slotsWidth_eq_of_each ih

theorem Genuine.width_lt (h : g.Genuine) : g.width < Width.limit := by
  cases h with
  | token hcheck => exact (TokenData.check_eq_ok_iff.mp hcheck).2.1
  | node _ hwidth _ => exact hwidth

theorem Genuine.slotsWidth_slots (h : g.Genuine) (hnode : g.isNode = true) :
    slotsWidth g.slots = g.width := by
  cases h with
  | token _ => cases hnode
  | node _ _ _ => rfl

theorem slotsWidth_eq_zero {slots : List Slot} (h : ∀ c, some c ∈ slots → c.width = 0) :
    slotsWidth slots = 0 := by
  induction slots with
  | nil => rfl
  | cons slot slots ih =>
    have hslots : slotsWidth slots = 0 := ih fun c hc => h c (List.mem_cons_of_mem _ hc)
    rw [slotsWidth, sumOf_cons, ← slotsWidth, hslots]
    cases slot with
    | none => rfl
    | some c => exact h c List.mem_cons_self

/-- A genuine placeholder has no text. -/
theorem Genuine.width_eq_zero (h : g.Genuine) (hmissing : g.isMissing = true) : g.width = 0 := by
  induction h with
  | @token t hcheck =>
    rcases (TokenData.check_eq_ok_iff.mp hcheck).2.2 with hpresent | hempty
    · simp [isMissing, presence, hpresent] at hmissing
    · simp [width, TokenData.width, String.isEmpty_iff.mp hempty]
  | node _ _ hall ih =>
    have hslots := hall (beq_iff_eq.mp hmissing)
    exact slotsWidth_eq_zero fun c hc => ih c hc (hslots c hc)

theorem within_iff {x : Green} : x.Within g ↔ x = g ∨ ∃ c, some c ∈ g.slots ∧ x.Within c := by
  constructor
  · intro hx
    cases hx with
    | refl => exact .inl rfl
    | slot hslot hx => exact .inr ⟨_, hslot, hx⟩
  · rintro (rfl | ⟨c, hslot, hx⟩)
    · exact .refl
    · exact .slot hslot hx

/-- Whether an element stands in for one that is required, or is a node that was not expected. -/
def isMarker (g : Green) : Bool := g.isMissing || (g.isNode && g.kind == .unexpected)

/-- A genuine element remembers an error exactly if there is a marker within it. -/
theorem Genuine.hasError_iff (h : g.Genuine) :
    g.hasError = true ↔ ∃ x : Green, x.Within g ∧ x.isMarker = true := by
  have hsplit (g : Green) : (∃ x : Green, x.Within g ∧ x.isMarker = true) ↔
      g.isMarker = true ∨ ∃ c, some c ∈ g.slots ∧ ∃ x : Green, x.Within c ∧ x.isMarker = true := by
    constructor
    · rintro ⟨x, hx, hmarker⟩
      rcases within_iff.mp hx with rfl | ⟨c, hc, hx⟩
      · exact .inl hmarker
      · exact .inr ⟨c, hc, x, hx, hmarker⟩
    · rintro (hmarker | ⟨c, hc, x, hx, hmarker⟩)
      · exact ⟨g, .refl, hmarker⟩
      · exact ⟨x, .slot hc hx, hmarker⟩
  induction h with
  | token _ =>
    rw [hsplit]
    simp [isMarker, isMissing, isNode, hasError, presence, slots]
  | @node id kind presence slots _ _ _ ih =>
    have hslots : (slots.any fun slot => slot.any hasError) = true ↔
        ∃ c, some c ∈ slots ∧ ∃ x : Green, x.Within c ∧ x.isMarker = true := by
      simp only [List.any_eq_true, Option.any_eq_true]
      constructor
      · rintro ⟨slot, hslot, c, rfl, hc⟩
        exact ⟨c, hslot, (ih c hslot).mp hc⟩
      · rintro ⟨c, hslot, hc⟩
        exact ⟨some c, hslot, c, rfl, (ih c hslot).mpr hc⟩
    rw [hsplit]
    simp only [hasError, errorOf, Bool.or_eq_true, hslots]
    simp [isMarker, isMissing, isNode, Green.presence, Green.kind, Green.slots]

end Green

/-- Whether a violation is about what a layout declares, not about what an element remembers. -/
def Violation.isOfLayout : Violation → Bool
  | missingWithText .. | widthMismatch .. => false
  | _ => true

namespace View

variable {v : View} {x : Violation}

theorem isOfLayout_of_memberViolation? {members : KindSet} {index : Nat} {slots : List Slot}
    (h : v.memberViolation? members index slots = some x) : x.isOfLayout = true := by
  induction slots generalizing index with
  | nil => cases h
  | cons slot slots ih =>
    cases slot with
    | none =>
      cases h
      rfl
    | some g =>
      rw [memberViolation?] at h
      split at h
      · exact ih h
      · cases h
        rfl

theorem isOfLayout_of_slotViolation? {declared : List (SlotSpec × Slot)}
    (h : v.slotViolation? declared = some x) : x.isOfLayout = true := by
  induction declared with
  | nil => cases h
  | cons entry rest ih =>
    obtain ⟨spec, slot⟩ := entry
    cases slot with
    | none =>
      rw [slotViolation?] at h
      split at h
      · exact ih h
      · cases h
        rfl
    | some g =>
      rw [slotViolation?] at h
      split at h
      · exact ih h
      · cases h
        rfl

theorem isOfLayout_of_layoutViolation? (h : v.layoutViolation? = some x) :
    x.isOfLayout = true := by
  unfold layoutViolation? at h
  split at h
  · cases h
  · exact isOfLayout_of_memberViolation? h
  · split at h
    · exact isOfLayout_of_slotViolation? h
    · cases h
      rfl

/-- The children of a genuine element are genuine. -/
theorem genuine_of_mem_children {c : View} (hv : v.green.Genuine) (hc : c ∈ v.children) :
    c.green.Genuine := by
  obtain ⟨slot, hslot, rfl⟩ := List.mem_filterMap.mp hc
  exact hv.genuineAll_slots _ (green_mem_of_mem_placeSlots hslot)

/-- No placeholder among the tokens of a genuine node has text. -/
theorem tokenViolation?_of_genuine (hv : v.green.Genuine) : v.tokenViolation? = none := by
  refine List.findSome?_eq_none_iff.mpr fun c hc => if_neg fun h => ?_
  simp only [Bool.and_eq_true, Bool.not_eq_true'] at h
  obtain ⟨⟨-, hmissing⟩, htext⟩ := h
  have hgenuine := genuine_of_mem_children hv hc
  have hzero := hgenuine.width_eq.symm.trans (hgenuine.width_eq_zero hmissing)
  rw [Text.byteLength_toList, String.utf8ByteSize_eq_zero_iff] at hzero
  rw [text, hzero] at htext
  cases htext

/-- A genuine node can break its layout and nothing else. -/
theorem violation?_of_genuine (hv : v.green.Genuine) (hnode : v.isNode = true) :
    v.violation? = v.layoutViolation? := by
  have hwidth : Green.slotsWidth v.green.slots = v.width := hv.slotsWidth_slots hnode
  have htext : (v.isMissing && !v.span.isEmpty) = false := by
    cases hmissing : v.isMissing with
    | false => rfl
    | true =>
      have hzero : v.width = 0 := hv.width_eq_zero hmissing
      simp [span, Text.Span.ofWidth, Text.Span.isEmpty, hzero]
  rw [violation?, if_neg (not_not_intro hwidth), htext, tokenViolation?_of_genuine hv]
  exact Option.or_none

/-- In a tree of genuine elements nothing is found but nodes that break their layout. -/
theorem isOfLayout_of_firstViolation? (hv : v.green.Genuine) (h : v.firstViolation? = some x) :
    x.isOfLayout = true := by
  obtain ⟨d, hd, hx⟩ := List.exists_of_findSome?_eq_some h
  obtain ⟨⟨path, hpath⟩, hnode⟩ := mem_nodes.mp hd
  rw [violation?_of_genuine (hv.of_within (within_of_descend? hpath)) hnode] at hx
  exact isOfLayout_of_layoutViolation? hx

end View

namespace Workspace

/-- In every workspace that can be reached, whatever is in use is as wide as its text, which is the
texts of its tokens in order. It remembers an error exactly if it is a placeholder or an unexpected
node or there is one below it. A placeholder has no text, and its slots are empty or hold
placeholders. Validation finds no wrong width and no placeholder with text. -/
theorem Reachable.remembered_of_live {w : Workspace} (hw : w.Reachable) {g : Green}
    (hg : w.Live g) :
    g.width = g.text.utf8ByteSize ∧
      g.text = String.join (g.leaves.map fun t => t.data.text) ∧
      (g.hasError = true ↔
        ∃ x : Green, x.Within g ∧ (x.isMissing = true ∨ x.isNode = true ∧ x.kind = .unexpected)) ∧
      (g.isMissing = true →
        g.width = 0 ∧ ∀ slot ∈ g.slots, slot = none ∨ ∃ c, slot = some c ∧ c.isMissing = true) ∧
      ∀ v : View, v.green = g →
        (∀ kind span remembered actual,
          v.firstViolation? ≠ some (.widthMismatch kind span remembered actual)) ∧
        ∀ kind span, v.firstViolation? ≠ some (.missingWithText kind span) := by
  have hgenuine := hw.genuine.of_live hg
  refine ⟨?_, g.text_eq_join, ?_, fun hmissing => ⟨hgenuine.width_eq_zero hmissing, ?_⟩, ?_⟩
  · rw [hgenuine.width_eq, Text.byteLength_toList]
  · rw [hgenuine.hasError_iff]
    simp [Green.isMarker]
  · intro slot hslot
    cases slot with
    | none => exact .inl rfl
    | some c => exact .inr ⟨c, rfl, hgenuine.isMissing_of_slot hmissing hslot⟩
  · rintro v rfl
    constructor
    · intro kind span remembered actual h
      cases View.isOfLayout_of_firstViolation? hgenuine h
    · intro kind span h
      cases View.isOfLayout_of_firstViolation? hgenuine h

open Scene

/-- A placeholder of a declaration whose keyword was filled with a placeholder, too. -/
theorem Reachable.remembered_of_live_placeholder :
    ∃ (w : Workspace) (g x : Green), w.Reachable ∧ w.Live g ∧ g.isMissing = true ∧
      g.slots[0]? = some (some x) ∧ g.hasError = true ∧ g.width = 0 ∧ g.text.utf8ByteSize = 0 := by
  let g : Green :=
    .node ⟨⟨0, 2⟩, .letDecl, .missing, 0, true⟩ [some (gap 1 .letKw), none, none, none]
  obtain ⟨w, hw, hg⟩ : ∃ w : Workspace, w.Reachable ∧ w.Live g :=
    exists_live_of_ok (@reachable_ofTrees [hole 0 .letDecl, gap 1 .letKw] rfl)
      (.replaceSlot (hole 0 .letDecl) 0 (some (gap 1 .letKw))) (inUse_of_found rfl) rfl
  obtain ⟨hwidth, -, herror, hmissing, -⟩ := hw.remembered_of_live hg
  have hzero := (hmissing rfl).1
  exact ⟨w, g, gap 1 .letKw, hw, hg, rfl, rfl, herror.mpr ⟨g, .refl, .inl rfl⟩, hzero,
    hwidth.symm.trans hzero⟩

end Workspace

end Verbatim
