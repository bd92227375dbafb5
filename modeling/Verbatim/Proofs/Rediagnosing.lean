import Verbatim.Proofs.Commuting
import Verbatim.Proofs.Diagnosing
import Verbatim.Proofs.Revising

/-!
# Diagnostics after an edit

What is diagnosed in a tree are its outermost markers. An edit of a slot, with no marker on the way
down to it, changes the markers only at and below this slot: those that were there are gone, and
those of what is put there come in their place. So the diagnostics change only there.
-/

namespace Verbatim

namespace Green

/-- A path leads to a marker and through no other. -/
def Marks (g : Green) : List Nat → Prop
  | [] => g.isMarker = true
  | n :: path => g.isMarker = false ∧ ∃ c, g.slots[n]? = some (some c) ∧ c.Marks path

/-- A path leads to something, and there is no marker on the way or at the end. -/
def Plain (g : Green) : List Nat → Prop
  | [] => g.isMarker = false
  | n :: path => g.isMarker = false ∧ ∃ c, g.slots[n]? = some (some c) ∧ c.Plain path

@[simp] theorem isMarker_value (g : Green) : g.value.isMarker = g.isMarker := by
  rw [isMarker, isMarker, isMissing_value, isNode_value, kind_value]

/-- Where the markers are depends on values alone. -/
theorem marks_value {g : Green} {path : List Nat} : g.value.Marks path ↔ g.Marks path := by
  induction path generalizing g with
  | nil => rw [Marks, Marks, isMarker_value]
  | cons n path ih =>
    have hslot : g.value.slots[n]? = g.slots[n]?.map (Option.map value) := by
      rw [slots_value, values_eq, List.getElem?_map]
    rw [Marks, Marks, isMarker_value, hslot]
    refine and_congr_right fun _ => ?_
    constructor
    · rintro ⟨c', hc', hmarks⟩
      obtain ⟨slot, hslot, heq⟩ := Option.map_eq_some_iff.mp hc'
      obtain ⟨c, rfl, rfl⟩ := Option.map_eq_some_iff.mp heq
      exact ⟨c, hslot, ih.mp hmarks⟩
    · rintro ⟨c, hc, hmarks⟩
      refine ⟨c.value, ?_, ih.mpr hmarks⟩
      rw [hc]
      rfl

variable {g : Green} {path : List Nat} {index : Nat} {slot : Slot}

/-- A node that is no marker stays one with something else in one of its slots, and nothing else
changes. -/
theorem refit_of_not_marker (h : g.isMarker = false) (index : Nat) (slot : Slot) :
    g.refit index slot = assemble g.kind .present (g.slots.set index (g.given index slot)) := by
  have hmissing : g.isMissing = false := (Bool.or_eq_false_iff.mp h).1
  rw [refit, dormant, awakened, hmissing, Bool.false_and, Bool.false_and,
    if_neg Bool.false_ne_true, if_neg Bool.false_ne_true]

theorem isMarker_refit (h : g.isMarker = false) (hnode : g.isNode = true) :
    (g.refit index slot).isMarker = false := by
  rw [refit_of_not_marker h]
  rw [isMarker, hnode, Bool.true_and, Bool.or_eq_false_iff] at h
  rw [isMarker, kind_assemble, h.2]
  rfl

/-- The markers of a node after one of its slots was set. -/
theorem marks_refit (h : g.isMarker = false) (hindex : index < g.slots.length) :
    (g.refit index slot).Marks path ↔ g.Marks path ∧ ¬ [index] <+: path ∨
      ∃ x rest, g.given index slot = some x ∧ x.Marks rest ∧ path = index :: rest := by
  have hafter : (g.refit index slot).isMarker = false := isMarker_refit h (isNode_of_lt hindex)
  cases path with
  | nil => simp [Marks, h, hafter]
  | cons n path =>
    rw [Marks, Marks, hafter, h, eq_self, true_and, true_and]
    by_cases hn : n = index
    · subst hn
      rw [getElem?_slots_refit_self g n slot hindex]
      simp
    · have hkept : (g.refit index slot).slots[n]? = g.slots[n]? := by
        rw [refit_of_not_marker h, slots_assemble, List.getElem?_set_ne (Ne.symm hn)]
      rw [hkept]
      simp [hn, Ne.symm hn]

/-- The markers of a tree after something was put into a slot: those at the slot and below it give
way to those of what is put there. -/
theorem marks_putAt {p : List Nat} {d : Green} (hp : g.Plain p) (hd : g.descend? p = some d)
    (hindex : index < d.slots.length) :
    (g.putAt p index slot).Marks path ↔ g.Marks path ∧ ¬ p ++ [index] <+: path ∨
      ∃ x rest, d.given index slot = some x ∧ x.Marks rest ∧ path = p ++ index :: rest := by
  induction p generalizing g path with
  | nil =>
    obtain rfl := Option.some.inj hd
    exact marks_refit hp hindex
  | cons n p ih =>
    obtain ⟨hmarker, c, hslot, hc⟩ := hp
    have hlt : n < g.slots.length := (List.getElem?_eq_some_iff.mp hslot).1
    rw [descend?_cons_of_slot hslot] at hd
    rw [putAt_cons hslot, marks_refit hmarker hlt]
    cases path with
    | nil => simp
    | cons m path =>
      by_cases hm : m = n
      · subst hm
        have hmarks : g.Marks (m :: path) ↔ c.Marks path := by
          rw [Marks, hmarker, hslot]
          simp
        have hbelow : (c.putAt p index slot).Marks path ↔ _ := ih hc hd
        rw [hmarks]
        simp [hbelow]
      · simp [hm, Ne.symm hm]

theorem isNode_of_descend? {p : List Nat} {d : Green} (hd : g.descend? p = some d)
    (hnode : d.isNode = true) : g.isNode = true := by
  cases p with
  | nil => exact Option.some.inj hd ▸ hnode
  | cons n p =>
    obtain ⟨c, hslot, -⟩ := exists_slot_of_descend? hd
    exact isNode_of_lt (List.getElem?_eq_some_iff.mp hslot).1

theorem isNode_putAt {p : List Nat} (hnode : g.isNode = true) :
    (g.putAt p index slot).isNode = true := by
  cases p with
  | nil => exact isNode_refit g index slot
  | cons n p =>
    rw [putAt]
    cases g.slots[n]?.join with
    | none => exact hnode
    | some c => exact isNode_refit g n _

/-- Below a plain path the markers are those of what stands there. -/
theorem marks_append {p : List Nat} {d : Green} (hp : g.Plain p) (hd : g.descend? p = some d) :
    g.Marks (p ++ path) ↔ d.Marks path := by
  induction p generalizing g with
  | nil =>
    obtain rfl := Option.some.inj hd
    rfl
  | cons n p ih =>
    obtain ⟨hmarker, c, hslot, hc⟩ := hp
    rw [descend?_cons_of_slot hslot] at hd
    rw [List.cons_append, Marks, hmarker, hslot, ← ih hc hd]
    simp

/-- A marker is the only outermost marker at and below its place. -/
theorem marks_of_isMarker (h : g.isMarker = true) : g.Marks path ↔ path = [] := by
  cases path with
  | nil => simp [Marks, h]
  | cons n path => simp [Marks, h]

/-- What remembers no error has no markers. -/
theorem Genuine.not_marks (hg : g.Genuine) (h : g.hasError = false) : ¬ g.Marks path := by
  intro hmarks
  have hwithin : ∃ x : Green, x.Within g ∧ x.isMarker = true := by
    clear h hg
    induction path generalizing g with
    | nil => exact ⟨g, .refl, hmarks⟩
    | cons n path ih =>
      obtain ⟨-, c, hslot, hc⟩ := hmarks
      obtain ⟨x, hx, hmarker⟩ := ih hc
      exact ⟨x, .slot (List.mem_of_getElem? hslot) hx, hmarker⟩
  rw [← hg.hasError_iff, h] at hwithin
  cases hwithin

section Aligned

/-- The trivia of a tree is aligned if that of what stands in its slots is. -/
theorem aligned_of_slots (hnode : g.isNode = true) (h : ∀ c, some c ∈ g.slots → c.Aligned) :
    g.Aligned := by
  intro t ht
  rcases within_iff.mp ht with rfl | ⟨c, hc, ht⟩
  · cases hnode
  · exact h c hc t ht

theorem Aligned.of_slot {c : Green} (h : g.Aligned) (hc : some c ∈ g.slots) : c.Aligned :=
  h.of_within (.of_slot hc)

theorem aligned_blank (kind : Kind) : (blank kind).Aligned := by
  unfold blank
  split
  · intro t ht
    rcases within_iff.mp ht with heq | ⟨c, hc, -⟩
    · rw [token.inj heq]
      rfl
    · cases hc
  · refine aligned_of_slots rfl fun c hc => ?_
    simp at hc

/-- Alignment depends on values alone. -/
theorem Aligned.of_value_eq {g g' : Green} (h : g.Aligned) (hvalue : g.value = g'.value) :
    g'.Aligned := by
  induction g' using induct generalizing g with
  | token t =>
    cases g with
    | node head slots => cases hvalue
    | token t' =>
      simp only [value, token.injEq, GreenToken.mk.injEq, true_and] at hvalue
      intro u hu
      rcases within_iff.mp hu with heq | ⟨c, hc, -⟩
      · rw [token.inj heq, ← hvalue]
        exact h t' .refl
      · cases hc
  | node head slots ih =>
    refine aligned_of_slots rfl fun c hc => ?_
    have hvalues : some c.value ∈ g.slots.map (Option.map value) := by
      rw [← values_eq, ← slots_value, hvalue, slots_value, values_eq]
      exact List.mem_map_of_mem hc
    obtain ⟨slot, hslot, heq⟩ := List.mem_map.mp hvalues
    obtain ⟨c', rfl, hc'⟩ := Option.map_eq_some_iff.mp heq
    exact ih c hc (h.of_slot hslot) hc'

/-- What is put into an aligned tree leaves it aligned, if it is aligned itself. -/
theorem Aligned.putAt (hg : g.Aligned) {p : List Nat} (hp : g.Plain p)
    (hslot : ∀ x, slot = some x → x.Aligned) : (g.putAt p index slot).Aligned := by
  have hrefit {g : Green} {n : Nat} {s : Slot} (hg : g.Aligned) (hmarker : g.isMarker = false)
      (hs : ∀ x, g.given n s = some x → x.Aligned) : (g.refit n s).Aligned := by
    refine aligned_of_slots (isNode_refit g n s) fun c hc => ?_
    rw [refit_of_not_marker hmarker, slots_assemble] at hc
    rcases List.mem_or_eq_of_mem_set hc with hc | hc
    · exact hg.of_slot hc
    · exact hs c hc.symm
  induction p generalizing g with
  | nil =>
    refine hrefit hg hp fun x hx => ?_
    cases slot with
    | some y => exact hslot x hx
    | none =>
      obtain ⟨spec, -, -, rfl⟩ := (given_none_eq_some_iff g index).mp hx
      exact aligned_blank _
  | cons n p ih =>
    obtain ⟨hmarker, c, hc, hplain⟩ := hp
    rw [putAt_cons hc]
    refine hrefit hg hmarker fun x hx => ?_
    rw [← Option.some.inj hx]
    exact ih (hg.of_slot (List.mem_of_getElem? hc)) hplain

end Aligned

end Green

namespace View

variable {v m : View} {path : List Nat}

/-- A view without markers on the way down to it, and something plain below it. -/
theorem Placed.plain_top (hv : v.Placed) (habove : ∀ a ∈ v.ancestors, a.isMarker = false)
    (h : v.green.Plain path) : v.top.green.Plain (v.path ++ path) := by
  induction v generalizing path with
  | root store g => exact h
  | child parent n offset g ih =>
    obtain ⟨hparent, hslot, -⟩ := placed_child.mp hv
    have habove : ∀ a ∈ parent.ancestors, a.isMarker = false := fun a ha =>
      habove a (List.mem_cons_of_mem _ ha)
    rw [View.path, List.append_assoc, List.singleton_append, top]
    exact ih hparent habove ⟨habove parent parent.self_mem_ancestors, g, hslot, h⟩

/-- The ways to markers that lead through no other. -/
theorem marks_iff : v.green.Marks path ↔ ∃ m, v.descend? path = some m ∧ m.isMarker = true ∧
    ∀ p q, path = p ++ q → q ≠ [] → ∀ a, v.descend? p = some a → a.isMarker = false := by
  induction path generalizing v with
  | nil =>
    rw [Green.Marks]
    constructor
    · intro hmarker
      refine ⟨v, rfl, hmarker, fun p q hsplit hq => absurd ?_ hq⟩
      exact (List.append_eq_nil_iff.mp hsplit.symm).2
    · rintro ⟨m, hm, hmarker, -⟩
      exact Option.some.inj hm ▸ hmarker
  | cons n path ih =>
    rw [Green.Marks]
    constructor
    · rintro ⟨hself, c, hslot, hmarks⟩
      have hu := slot?_of_getElem? hslot
      obtain ⟨m, hm, hmarker, hway⟩ := (ih (v := .child v n _ c)).mp hmarks
      refine ⟨m, (descend?_cons_of_slot hu path).trans hm, hmarker, fun p q hsplit hq a ha => ?_⟩
      cases p with
      | nil => exact Option.some.inj ha ▸ hself
      | cons k p =>
        obtain ⟨rfl, rfl⟩ := List.cons.inj hsplit
        exact hway p q rfl hq a ((descend?_cons_of_slot hu p).symm.trans ha)
    · rintro ⟨m, hm, hmarker, hway⟩
      obtain ⟨u, hu, hm⟩ := Option.bind_eq_some_iff.mp hm
      have hslot := hu
      rw [slot?_eq] at hslot
      obtain ⟨c, hc, rfl⟩ := Option.map_eq_some_iff.mp hslot
      refine ⟨hway [] (n :: path) rfl (List.cons_ne_nil _ _) v rfl, c,
        Option.join_eq_some_iff.mp hc, ?_⟩
      refine (ih (v := .child v n _ c)).mpr ⟨m, hm, hmarker, fun p q hsplit hq a ha => ?_⟩
      exact hway (n :: p) q (congrArg (n :: ·) hsplit) hq a ((descend?_cons_of_slot hu p).trans ha)

/-- The paths of the outermost markers below a view. -/
theorem Placed.exists_outermost_iff (hv : v.Placed) :
    (∃ m, v.Outermost m ∧ m.path = v.path ++ path) ↔ v.green.Marks path := by
  rw [marks_iff]
  constructor
  · rintro ⟨m, hm, hpath⟩
    obtain ⟨hmarker, way, hway, hopen⟩ := hv.outermost_iff.mp hm
    obtain rfl : way = path := by
      rw [path_of_descend? hway] at hpath
      exact List.append_cancel_left hpath
    exact ⟨m, hway, hmarker, hopen⟩
  · rintro ⟨m, hm, hmarker, hopen⟩
    exact ⟨m, hv.outermost_iff.mpr ⟨hmarker, path, hm, hopen⟩, path_of_descend? hm⟩

end View

namespace DiagnosticSink

variable {s s' : DiagnosticSink} {m : View} {markers : List View}

/-- Whether just those elements need no further report that were reported. -/
def Tracks (s : DiagnosticSink) : Prop :=
  ∀ v, s.isHandled v = true ↔ v.path ∈ s.anchors.map View.path

theorem Tracks.report (h : s.Tracks) (d : Diagnostic) : (s.report d).Tracks := by
  intro v
  rw [isHandled_report, anchors_report, h v, List.map_append, List.mem_append]
  simp

/-- Where the first pass succeeds, a marker that a rule knows is reported. -/
theorem Tracks.of_reportContextual (h : s.Tracks) (hs : View.reportContextual s m = .ok s') :
    s'.Tracks ∧ s'.anchors = s.anchors ++ [m].filter View.isExplained := by
  obtain ⟨found, hfound, hs⟩ := exists_of_bind_eq_ok hs
  have hexplained : m.isExplained = found.isSome := by
    rw [View.isExplained, hfound]
    rfl
  cases found with
  | none =>
    obtain rfl := Except.ok.inj hs
    exact ⟨h, by simp [hexplained]⟩
  | some found =>
    obtain rfl := Except.ok.inj hs
    exact ⟨h.report _, by simp [hexplained, anchors_report]⟩

/-- Where the second pass succeeds, a marker that needs a report is reported. -/
theorem Tracks.of_reportGeneral (h : s.Tracks) (hs : View.reportGeneral s m = .ok s') :
    s'.Tracks ∧ s'.anchors = s.anchors ++ [m].filter fun m => !s.isHandled m := by
  rw [View.reportGeneral] at hs
  cases hhandled : s.isHandled m with
  | true =>
    rw [hhandled, if_pos rfl] at hs
    obtain rfl := Except.ok.inj hs
    exact ⟨h, by simp [hhandled]⟩
  | false =>
    rw [hhandled, if_neg Bool.false_ne_true] at hs
    obtain ⟨found, -, hs⟩ := exists_of_bind_eq_ok hs
    obtain rfl := Except.ok.inj hs
    exact ⟨h.report _, by simp [hhandled, anchors_report]⟩

theorem Tracks.of_foldlM_reportContextual (h : s.Tracks)
    (hs : markers.foldlM View.reportContextual s = .ok s') :
    s'.Tracks ∧ s'.anchors = s.anchors ++ markers.filter View.isExplained := by
  induction markers generalizing s with
  | nil =>
    obtain rfl := Except.ok.inj hs
    exact ⟨h, by simp⟩
  | cons m markers ih =>
    rw [List.foldlM_cons] at hs
    obtain ⟨s₁, hfirst, hs⟩ := exists_of_bind_eq_ok hs
    obtain ⟨htracks, hanchors⟩ := h.of_reportContextual hfirst
    obtain ⟨htracks', hanchors'⟩ := ih htracks hs
    refine ⟨htracks', ?_⟩
    rw [hanchors', hanchors, List.append_assoc, ← List.filter_append, List.singleton_append]

/-- Of markers with different paths, those are reported in the second pass that need a report when
it begins. -/
theorem Tracks.of_foldlM_reportGeneral (h : s.Tracks) (hnodup : (markers.map View.path).Nodup)
    (hs : markers.foldlM View.reportGeneral s = .ok s') :
    s'.anchors = s.anchors ++ markers.filter fun m => !s.isHandled m := by
  induction markers generalizing s with
  | nil =>
    obtain rfl := Except.ok.inj hs
    simp
  | cons m markers ih =>
    obtain ⟨hfresh, hnodup⟩ := List.nodup_cons.mp hnodup
    rw [List.foldlM_cons] at hs
    obtain ⟨s₁, hfirst, hs⟩ := exists_of_bind_eq_ok hs
    obtain ⟨htracks, hanchors⟩ := h.of_reportGeneral hfirst
    -- A report about this marker says nothing about those at other paths.
    have hrest : ∀ u ∈ markers, (!s₁.isHandled u) = !s.isHandled u := by
      intro u hu
      congr 1
      rw [Bool.eq_iff_iff, htracks u, h u, hanchors, List.map_append, List.mem_append]
      refine or_iff_left fun hmem => ?_
      obtain ⟨x, hx, hpath⟩ := List.mem_map.mp hmem
      obtain rfl := List.mem_singleton.mp (List.mem_filter.mp hx).1
      exact hfresh (hpath ▸ List.mem_map_of_mem hu)
    rw [ih htracks hnodup hs, hanchors, List.append_assoc, List.filter_congr hrest,
      ← List.filter_append, List.singleton_append]

/-- Finishing, where it succeeds, only changes the order. -/
theorem perm_of_finish {ds : List Diagnostic} (h : s.finish = .ok ds) :
    ds.Perm s.diagnostics := by
  have hplaced (diagnostics : List Diagnostic) (placed : List (Text.Span × Diagnostic))
      (h : (diagnostics.mapM fun d => do return (← d.span, d)) = .ok placed) :
      placed.map Prod.snd = diagnostics := by
    induction diagnostics generalizing placed with
    | nil =>
      obtain rfl := Except.ok.inj h
      rfl
    | cons d diagnostics ih =>
      rw [List.mapM_cons] at h
      obtain ⟨first, hfirst, h⟩ := exists_of_bind_eq_ok h
      obtain ⟨rest, hrest, h⟩ := exists_of_bind_eq_ok h
      obtain ⟨span, -, hfirst⟩ := exists_of_bind_eq_ok hfirst
      obtain rfl := Except.ok.inj h
      obtain rfl := Except.ok.inj hfirst
      rw [List.map_cons, ih rest hrest]
  obtain ⟨placed, hmap, hsort⟩ := exists_of_bind_eq_ok h
  obtain rfl := Except.ok.inj hsort
  refine ((List.mergeSort_perm placed placedLe).map Prod.snd).trans ?_
  rw [hplaced s.diagnostics placed hmap]

end DiagnosticSink

namespace View

/-- Where diagnostics come out, they are about the markers that are found, about each of them
once. -/
theorem Stands.perm_of_diagnostics {r v : View} {ds : List Diagnostic} (h : Stands r v)
    (hgenuine : r.green.Genuine) (hnode : v.isNode = true) (hds : v.diagnostics = .ok ds) :
    (ds.map Diagnostic.anchor).Perm v.markers := by
  have hvgenuine := h.genuine hgenuine
  have hstands : ∀ m ∈ v.markers, Stands r m := fun m hm =>
    h.of_outermost ((h.placed.mem_markers hvgenuine hnode).mp hm)
  rw [diagnostics_eq] at hds
  obtain ⟨s, hs, hfinish⟩ := exists_of_bind_eq_ok hds
  obtain ⟨s₁, hcontextual, hgeneral⟩ := exists_of_bind_eq_ok hs
  have hempty : DiagnosticSink.Tracks {} := fun v => by
    simp [DiagnosticSink.isHandled, DiagnosticSink.anchors]
  obtain ⟨htracks, hanchors₁⟩ := hempty.of_foldlM_reportContextual hcontextual
  have hhandled : ∀ m ∈ v.markers, (!s₁.isHandled m) = !m.isExplained := by
    intro m hm
    congr 1
    rw [Bool.eq_iff_iff, htracks m, hanchors₁]
    constructor
    · intro hpath
      obtain ⟨u, hu, hpath⟩ := List.mem_map.mp hpath
      obtain ⟨hu, hexplained⟩ := List.mem_filter.mp hu
      exact (hstands u hu).eq_of_path (hstands m hm) hpath ▸ hexplained
    · intro hexplained
      exact List.mem_map_of_mem (List.mem_filter.mpr ⟨hm, hexplained⟩)
  have hanchors := htracks.of_foldlM_reportGeneral (nodup_path_markers hvgenuine hnode) hgeneral
  rw [hanchors₁, List.filter_congr hhandled] at hanchors
  refine ((DiagnosticSink.perm_of_finish hfinish).map _).trans ?_
  show s.anchors.Perm v.markers
  rw [hanchors]
  exact List.filter_append_perm _ _

/-- Of a valid tree whose trivia is aligned, diagnostics come out. -/
theorem Stands.exists_diagnostics {r v : View} (h : Stands r v) (hgenuine : r.green.Genuine)
    (hnode : v.isNode = true) (hvalid : r.isValid = true) (haligned : r.green.Aligned) :
    ∃ ds, v.diagnostics = .ok ds := by
  have hlegal := (isValid_iff hgenuine).mp hvalid
  have hvgenuine := h.genuine hgenuine
  have hstands : ∀ m ∈ v.markers, Stands r m := fun m hm =>
    h.of_outermost ((h.placed.mem_markers hvgenuine hnode).mp hm)
  have hlegible : ∀ m ∈ v.markers, m.Legible := fun m hm =>
    (hstands m hm).legible hgenuine hlegal haligned
  have hspans : ∀ m ∈ v.markers, ∃ span, m.trimmedSpan = .ok span := by
    intro m hm
    have hm := hstands m hm
    obtain ⟨span, hspan, -⟩ :=
      exists_cuts_trimmedSpan (hm.genuine hgenuine) (haligned.of_within hm.within)
    exact ⟨span, hspan⟩
  obtain ⟨ds, hds, -⟩ := h.exists_diagnostics_said hgenuine hnode hlegible hspans
  exact ⟨ds, hds⟩

end View

/-- The paths of the elements that diagnostics are about. -/
def anchorPaths (ds : List Diagnostic) : List (List Nat) := ds.map fun d => d.anchor.path

section AnchorPaths

variable {tag : Nat} {g : Green} {ds : List Diagnostic} (hg : g.Genuine) (hnode : g.isNode = true)
  (hds : (View.root tag g).diagnostics = .ok ds)

include hg hnode hds

/-- The diagnostics of a tree are about its outermost markers. -/
theorem mem_anchorPaths {path : List Nat} : path ∈ anchorPaths ds ↔ g.Marks path := by
  have hroot : View.Stands (.root tag g) (.root tag g) := ⟨trivial, rfl⟩
  have hperm := (hroot.perm_of_diagnostics hg hnode hds).map View.path
  rw [List.map_map] at hperm
  have hmarks : (∃ m, (View.root tag g).Outermost m ∧ m.path = path) ↔ g.Marks path :=
    hroot.placed.exists_outermost_iff
  rw [← hmarks, show anchorPaths ds = ds.map (View.path ∘ Diagnostic.anchor) from rfl,
    hperm.mem_iff, List.mem_map]
  refine exists_congr fun m => and_congr_left fun _ => ?_
  exact hroot.placed.mem_markers hg hnode

theorem nodup_anchorPaths : (anchorPaths ds).Nodup := by
  have hroot : View.Stands (.root tag g) (.root tag g) := ⟨trivial, rfl⟩
  have hperm := (hroot.perm_of_diagnostics hg hnode hds).map View.path
  rw [List.map_map] at hperm
  exact hperm.nodup_iff.mpr (View.nodup_path_markers (v := .root tag g) hg hnode)

end AnchorPaths

section Places

variable {before after : List (List Nat)} {place : List Nat} (hnodup : before.Nodup)
  (hnodup' : after.Nodup)

include hnodup hnodup'

/-- Where only one path is at or below a place, and this is the place itself, taking away those that
are there takes away one. -/
theorem perm_of_removed (honly : ∀ path, path ∈ before ∧ place <+: path ↔ path = place)
    (h : ∀ path, path ∈ after ↔ path ∈ before ∧ ¬ place <+: path) :
    before.Perm (place :: after) := by
  have hfresh : place ∉ after := fun hmem => ((h place).mp hmem).2 (List.prefix_refl _)
  refine (List.perm_ext_iff_of_nodup hnodup (List.nodup_cons.mpr ⟨hfresh, hnodup'⟩)).mpr ?_
  intro path
  rw [List.mem_cons, h]
  constructor
  · intro hmem
    by_cases hbelow : place <+: path
    · exact .inl ((honly path).mp ⟨hmem, hbelow⟩)
    · exact .inr ⟨hmem, hbelow⟩
  · rintro (hplace | ⟨hmem, -⟩)
    · exact ((honly path).mpr hplace).1
    · exact hmem

/-- Where no path is at or below a place, taking away those that are there and adding the place adds
one. -/
theorem perm_of_added (hnone : ∀ path ∈ before, ¬ place <+: path)
    (h : ∀ path, path ∈ after ↔ path ∈ before ∧ ¬ place <+: path ∨ path = place) :
    after.Perm (place :: before) := by
  have hfresh : place ∉ before := fun hmem => hnone place hmem (List.prefix_refl _)
  refine (List.perm_ext_iff_of_nodup hnodup' (List.nodup_cons.mpr ⟨hfresh, hnodup⟩)).mpr ?_
  intro path
  rw [List.mem_cons, h, or_comm]
  refine or_congr_right ⟨And.left, fun hmem => ⟨hmem, hnone path hmem⟩⟩

end Places

namespace View

variable {tag : Nat} {g : Green} {p path : List Nat} {v u : View} {index : Nat} {slot : Slot}

/-- A view that is no marker, with none above it, stands at a plain path. -/
theorem plain_of_descend? (hv : (View.root tag g).descend? p = some v)
    (habove : ∀ a ∈ v.ancestors, a.isMarker = false) :
    g.Plain p ∧ g.descend? p = some v.green := by
  obtain ⟨hplaced, htop, hpath⟩ := Placed.of_descend? (v := .root tag g) trivial hv
  have hpath : v.path = p := hpath
  have hself : v.green.Plain [] := habove v v.self_mem_ancestors
  have hplain := hplaced.plain_top habove hself
  rw [htop, hpath, List.append_nil] at hplain
  refine ⟨hplain, ?_⟩
  have hd := map_green_descend? (.root tag g) p
  rw [hv] at hd
  exact hd.symm

/-- The markers in and below a slot of such a view are those of what stands there. -/
theorem marks_slot_iff (hv : (View.root tag g).descend? p = some v)
    (habove : ∀ a ∈ v.ancestors, a.isMarker = false) : g.Marks (p ++ index :: path) ↔
      ∃ c, v.slot? index = some c ∧ c.green.Marks path := by
  obtain ⟨hplain, hd⟩ := plain_of_descend? hv habove
  have hmarker : v.green.isMarker = false := habove v v.self_mem_ancestors
  rw [Green.marks_append hplain hd, Green.Marks, hmarker, eq_self, true_and]
  constructor
  · rintro ⟨c, hc, hmarks⟩
    exact ⟨_, slot?_of_getElem? hc, hmarks⟩
  · rintro ⟨c, hc, hmarks⟩
    rw [slot?_eq] at hc
    obtain ⟨c, hslot, rfl⟩ := Option.map_eq_some_iff.mp hc
    exact ⟨c, Option.join_eq_some_iff.mp hslot, hmarks⟩

/-- A path at or below the slot of such a view. -/
theorem exists_marks_of_below (hv : (View.root tag g).descend? p = some v)
    (habove : ∀ a ∈ v.ancestors, a.isMarker = false) (hmarks : g.Marks path)
    (hbelow : p ++ [index] <+: path) :
    ∃ c rest, v.slot? index = some c ∧ c.green.Marks rest ∧ path = p ++ index :: rest := by
  obtain ⟨rest, rfl⟩ := hbelow
  rw [List.append_assoc, List.singleton_append] at hmarks ⊢
  obtain ⟨c, hc, hmarks⟩ := (marks_slot_iff hv habove).mp hmarks
  exact ⟨c, rest, hc, hmarks, rfl⟩

/-- If something is missing from the slot of such a view, then there is no other marker there. -/
theorem marks_below_iff_of_isMissing {c : View} (hv : (View.root tag g).descend? p = some v)
    (habove : ∀ a ∈ v.ancestors, a.isMarker = false) (hc : v.slot? index = some c)
    (hmissing : c.isMissing = true) :
    g.Marks path ∧ p ++ [index] <+: path ↔ path = p ++ [index] := by
  have hmarker : c.green.isMarker = true := by
    rw [Green.isMarker, show c.green.isMissing = true from hmissing, Bool.true_or]
  constructor
  · rintro ⟨hmarks, hbelow⟩
    obtain ⟨c', rest, hc', hrest, rfl⟩ := exists_marks_of_below hv habove hmarks hbelow
    obtain rfl : c = c' := Option.some.inj (hc.symm.trans hc')
    rw [(Green.marks_of_isMarker hmarker).mp hrest]
  · rintro rfl
    refine ⟨(marks_slot_iff hv habove).mpr ⟨c, hc, ?_⟩, List.prefix_refl _⟩
    exact (Green.marks_of_isMarker hmarker).mpr rfl

/-- If the slot of such a view holds no error, then there is no marker there. -/
theorem not_below_of_marks (hv : (View.root tag g).descend? p = some v)
    (habove : ∀ a ∈ v.ancestors, a.isMarker = false) (hg : g.Genuine)
    (hclean : ∀ c, v.slot? index = some c → c.hasError = false) (hmarks : g.Marks path) :
    ¬ p ++ [index] <+: path := by
  intro hbelow
  obtain ⟨c, rest, hc, hrest, -⟩ := exists_marks_of_below hv habove hmarks hbelow
  have hwithin : c.green.Within v.green := within_of_descend? (descend?_cons_of_slot hc [])
  have hcgenuine := (hg.of_within (within_of_descend? hv)).of_within hwithin
  exact hcgenuine.not_marks (hclean c hc) hrest

/-- Of what goes into a slot, the markers are those of what is given, or the placeholder that stands
in for it. -/
theorem exists_given_marks_iff {spec : SlotSpec} (hspec : v.kind.slotSpecs[index]? = some spec) :
    (∃ x rest, v.green.given index slot = some x ∧ x.Marks rest ∧ path = p ++ index :: rest) ↔
      slot = none ∧ spec.isOptional = false ∧ path = p ++ [index] ∨
      ∃ x m, slot = some x ∧ (View.root tag x).Outermost m ∧ path = p ++ index :: m.path := by
  cases slot with
  | none =>
    have hblank : (Green.blank spec.placeholder).isMarker = true := by
      rw [Green.isMarker, Green.isMissing_blank, Bool.true_or]
    constructor
    · rintro ⟨x, rest, hx, hmarks, rfl⟩
      obtain ⟨spec', hspec', hrequired, rfl⟩ := (Green.given_none_eq_some_iff _ _).mp hx
      obtain rfl : spec' = spec := Option.some.inj (hspec'.symm.trans hspec)
      rw [Green.marks_of_isMarker hblank] at hmarks
      exact .inl ⟨rfl, hrequired, by rw [hmarks]⟩
    · rintro (⟨-, hrequired, rfl⟩ | ⟨x, m, hx, -⟩)
      · have hgiven := (Green.given_none_eq_some_iff _ _).mpr ⟨spec, hspec, hrequired, rfl⟩
        refine ⟨_, [], hgiven, ?_, rfl⟩
        exact (Green.marks_of_isMarker hblank).mpr rfl
      · cases hx
  | some x =>
    have hroot {rest : List Nat} :
        (∃ m, (View.root tag x).Outermost m ∧ m.path = rest) ↔ x.Marks rest :=
      Placed.exists_outermost_iff (v := .root tag x) trivial
    constructor
    · rintro ⟨y, rest, hy, hmarks, rfl⟩
      obtain rfl : x = y := Option.some.inj hy
      obtain ⟨m, hm, rfl⟩ := hroot.mpr hmarks
      exact .inr ⟨x, m, rfl, hm, rfl⟩
    · rintro (⟨hnone, -⟩ | ⟨y, m, hy, hm, rfl⟩)
      · cases hnone
      · obtain rfl : x = y := Option.some.inj hy
        exact ⟨x, m.path, rfl, hroot.mp ⟨m, hm, rfl⟩, rfl⟩

end View

namespace Workspace

variable {w : Workspace} {s : Store} {tag : Nat} {g : Green} {p : List Nat} {v u : View}
  {specs : List SlotSpec} {spec : SlotSpec} {index : Nat} {slot : Slot}

/-- An edit of a tree in use gives a tree of genuine elements. -/
theorem Offers.genuine_top (h : w.Offers s g slot) (hv : (View.root tag g).descend? p = some v)
    (hu : (v.replaceSlot index slot s).1 = .ok u) : u.top.green.Genuine := by
  have hgenuine := h.reachable.genuine
  obtain ⟨hplaced, htop, -⟩ := View.Placed.of_descend? (v := .root tag g) trivial hv
  have hview : v.Genuine := hplaced.genuine (by rw [htop]; exact hgenuine.of_live h.live_tree)
  have hslot : Green.GenuineAll [slot] := fun x hx =>
    hgenuine.of_live (h.live_slot x (List.mem_singleton.mp hx).symm)
  have hensures := View.ensures_replaceSlot hview index hslot s (hgenuine.stores s h.mem_stores)
  exact (hensures.2 u hu).top

/-- An edit of a node with a fixed layout puts what is given in its place. -/
theorem Offers.value_top (h : w.Offers s g slot) (hv : (View.root tag g).descend? p = some v)
    (hlayout : v.kind.layout = .fixed specs) (hu : (v.replaceSlot index slot s).1 = .ok u) :
    u.top.green.value = (g.putAt p index slot).value := by
  have hremoves : ¬ v.green.Removes slot := by
    rintro ⟨hcollection, -⟩
    rw [← Kind.isSome_members?_layout, show v.green.kind.layout = .fixed specs from hlayout]
      at hcollection
    cases hcollection
  obtain ⟨e, rfl, hknows, hslots⟩ := h.exists_site
  obtain ⟨-, -, -, hvalue, -⟩ := View.exists_first hv hknows hslots hremoves hu
  exact hvalue

/-- The outermost markers after an edit: those elsewhere, and those of what goes into the slot. -/
theorem Offers.marks_top_iff (h : w.Offers s g slot) (hv : (View.root tag g).descend? p = some v)
    (habove : ∀ a ∈ v.ancestors, a.isMarker = false) (hlayout : v.kind.layout = .fixed specs)
    (hspec : specs[index]? = some spec) (hu : (v.replaceSlot index slot s).1 = .ok u)
    (path : List Nat) :
    u.top.green.Marks path ↔
      g.Marks path ∧ ¬ p ++ [index] <+: path ∨
      slot = none ∧ spec.isOptional = false ∧ path = p ++ [index] ∨
      ∃ x m, slot = some x ∧ (View.root tag x).Outermost m ∧ path = p ++ index :: m.path := by
  obtain ⟨hplain, hd⟩ := View.plain_of_descend? hv habove
  have hspec : v.kind.slotSpecs[index]? = some spec := by
    rw [Kind.slotSpecs, hlayout]
    exact hspec
  rw [← Green.marks_value, h.value_top hv hlayout hu, Green.marks_value,
    Green.marks_putAt hplain hd (View.lt_slotCount_of_replaceSlot hu),
    View.exists_given_marks_iff hspec]

/-- A slot of a valid tree is replaced, in a node with a fixed layout that is no marker and has none
above it, and the tree stays valid. If trivia ends and begins between characters, diagnostics come
out before and after. Wherever they do, no two are about one path, and the paths after the edit are
those before it that are not at or below the slot, the slot itself if it is required and was
emptied, and below the slot those of the outermost markers of what was put there. So filling a slot
that something was missing from with something without errors takes away one diagnostic, and
emptying a required slot that held something without errors adds one. -/
theorem diagnostics_follow_edit (h : w.Offers s g slot)
    (hvalid : (View.root tag g).isValid = true) (hv : (View.root tag g).descend? p = some v)
    (habove : ∀ a ∈ v.ancestors, a.isMarker = false) (hlayout : v.kind.layout = .fixed specs)
    (hspec : specs[index]? = some spec) (hu : (v.replaceSlot index slot s).1 = .ok u)
    (huvalid : u.top.isValid = true) :
    (g.Aligned → ∃ ds, (View.root tag g).diagnostics = .ok ds) ∧
    (g.Aligned → (∀ x, slot = some x → x.Aligned) → ∃ ds', u.top.diagnostics = .ok ds') ∧
    ∀ ds ds', (View.root tag g).diagnostics = .ok ds → u.top.diagnostics = .ok ds' →
      ((anchorPaths ds).Nodup ∧ (anchorPaths ds').Nodup) ∧
      (∀ path, path ∈ anchorPaths ds' ↔
        path ∈ anchorPaths ds ∧ ¬ p ++ [index] <+: path ∨
        slot = none ∧ spec.isOptional = false ∧ path = p ++ [index] ∨
        ∃ x m, slot = some x ∧ (View.root tag x).Outermost m ∧ path = p ++ index :: m.path) ∧
      (∀ c x, v.slot? index = some c → c.isMissing = true → slot = some x → x.hasError = false →
        (anchorPaths ds).Perm ((p ++ [index]) :: anchorPaths ds')) ∧
      ((∀ c, v.slot? index = some c → c.hasError = false) → slot = none →
        spec.isOptional = false →
        (anchorPaths ds').Perm ((p ++ [index]) :: anchorPaths ds)) := by
  have hgenuine : g.Genuine := h.reachable.genuine.of_live h.live_tree
  have hgenuine' := h.genuine_top hv hu
  have hvalue := h.value_top hv hlayout hu
  obtain ⟨hplain, hd⟩ := View.plain_of_descend? hv habove
  have hnode : g.isNode = true :=
    Green.isNode_of_descend? hd (Green.isNode_of_lt (View.lt_slotCount_of_replaceSlot hu))
  have hnode' : u.top.green.isNode = true := by
    rw [← Green.isNode_value, hvalue, Green.isNode_value]
    exact Green.isNode_putAt hnode
  have hmarks := h.marks_top_iff hv habove hlayout hspec hu
  have haligned' (hg : g.Aligned) (hslot : ∀ x, slot = some x → x.Aligned) :
      u.top.green.Aligned := (hg.putAt hplain hslot).of_value_eq hvalue.symm
  obtain ⟨tag', htag⟩ := u.exists_top_eq
  generalize u.top.green = g' at htag hmarks hgenuine' hnode' haligned'
  rw [htag] at huvalid ⊢
  have hroot {tag : Nat} {g : Green} : View.Stands (.root tag g) (.root tag g) := ⟨trivial, rfl⟩
  refine ⟨hroot.exists_diagnostics hgenuine hnode hvalid, fun hg hslot =>
    hroot.exists_diagnostics hgenuine' hnode' huvalid (haligned' hg hslot), ?_⟩
  intro ds ds' hds hds'
  have hnodup := nodup_anchorPaths hgenuine hnode hds
  have hnodup' := nodup_anchorPaths hgenuine' hnode' hds'
  have hset (path : List Nat) : path ∈ anchorPaths ds' ↔
      path ∈ anchorPaths ds ∧ ¬ p ++ [index] <+: path ∨
      slot = none ∧ spec.isOptional = false ∧ path = p ++ [index] ∨
      ∃ x m, slot = some x ∧ (View.root tag x).Outermost m ∧ path = p ++ index :: m.path := by
    rw [mem_anchorPaths hgenuine hnode hds, mem_anchorPaths hgenuine' hnode' hds', hmarks]
  refine ⟨⟨hnodup, hnodup'⟩, hset, ?filling, ?clearing⟩
  case filling =>
    rintro c x hc hmissing rfl hclean
    have hx : x.Genuine := h.reachable.genuine.of_live (h.live_slot x rfl)
    refine perm_of_removed hnodup hnodup' (fun path => ?_) fun path => ?_
    · rw [mem_anchorPaths hgenuine hnode hds]
      exact View.marks_below_iff_of_isMissing hv habove hc hmissing
    · refine (hset path).trans (or_iff_left ?_)
      rintro (⟨hnone, -⟩ | ⟨y, m, hy, hm, -⟩)
      · cases hnone
      · obtain rfl := Option.some.inj hy
        exact hx.not_marks hclean (hroot.placed.exists_outermost_iff.mp ⟨m, hm, rfl⟩)
  case clearing =>
    rintro hclean rfl hrequired
    refine perm_of_added hnodup hnodup' (fun path hmem => ?_) fun path => ?_
    · have hmarks := (mem_anchorPaths hgenuine hnode hds).mp hmem
      exact View.not_below_of_marks hv habove hgenuine hclean hmarks
    · refine (hset path).trans (or_congr_right ?_)
      constructor
      · rintro (⟨-, -, hplace⟩ | ⟨x, m, hx, -⟩)
        · exact hplace
        · cases hx
      · exact fun hplace => .inl ⟨rfl, hrequired, hplace⟩

open Scene

/-- The ascription of a type. -/
def ascribing (serial : Nat) (type : Green) : Green :=
  branch serial .typeAscription [some (word 2 .colon ":"), some type]

/-- A declaration whose name is missing. -/
def declaring (serial : Nat) (ascription : Green) : Green :=
  branch serial .letDecl [some (spaced 0 .letKw "let "), some (gap 1 .ident), some ascription, none]

/-- The type `T`. -/
def simpleType : Green := branch 7 .typeName [some (word 6 .ident "T")]

/-- The tree of `let :`. -/
def typeless : Green := declaring 5 (ascribing 4 (hole 3 .typeName))

/-- In `let :` the name and the name of its type are missing. The name of the type is filled in, and
what is left to be diagnosed is that there is no name. -/
theorem diagnostics_follow_edit_type :
    ∃ (w : Workspace) (s : Store) (g x : Green) (v c u : View) (ds ds' : List Diagnostic),
      w.Offers s g (some x) ∧ g.text = "let :" ∧ x.text = "T" ∧ (View.root 0 g).isValid = true ∧
        (View.root 0 g).descend? [2] = some v ∧ v.slot? 1 = some c ∧ c.isMissing = true ∧
        (v.replaceSlot 1 (some x) s).1 = .ok u ∧ u.top.isValid = true ∧
        (View.root 0 g).diagnostics = .ok ds ∧ u.top.diagnostics = .ok ds' ∧
        (anchorPaths ds).Perm ([2, 1] :: anchorPaths ds') ∧ [1] ∈ anchorPaths ds' := by
  let c := ofTrees [typeless, simpleType]
  have hw : c.workspace.Reachable := reachable_ofTrees rfl
  let v : View := .child (.root 0 typeless) 2 4 (ascribing 4 (hole 3 .typeName))
  let u : View :=
    .child (.root 0 (declaring 9 (ascribing 8 simpleType))) 2 4 (ascribing 8 simpleType)
  have hv : (View.root 0 typeless).descend? [2] = some v := rfl
  have hu : (v.replaceSlot 1 (some simpleType) c.store).1 = .ok u := rfl
  have hg : c.workspace.Live typeless := live_of_found rfl
  have hoffers : c.workspace.Offers c.store typeless (some simpleType) :=
    ⟨hw, c.store_mem, hg, fun y hy => Option.some.inj hy ▸ live_of_found rfl⟩
  have hlegal {x : Green} (h : (parts x).all (fun y => !y.isNode || y.follows) = true) : x.Legal :=
    fun y hy hnode => by simpa [hnode] using of_within h hy
  have hvalid : (View.root 0 typeless).isValid = true :=
    (View.isValid_iff (v := .root 0 typeless) (hw.genuine.of_live hg)).mpr (hlegal (by decide))
  have hvalid' : u.top.isValid = true :=
    (View.isValid_iff (hoffers.genuine_top hv hu)).mpr (hlegal (by decide))
  have habove : ∀ a ∈ v.ancestors, a.isMarker = false := by decide
  let specs : List SlotSpec := [.required "colon" .colon, .required "ty" .typeName]
  have hlayout : v.kind.layout = .fixed specs := rfl
  have hspec : specs[1]? = some (.required "ty" .typeName) := rfl
  have haligned : typeless.Aligned := Green.aligned_of_parts (by decide)
  obtain ⟨hok, hok', hresult⟩ :=
    diagnostics_follow_edit hoffers hvalid hv habove hlayout hspec hu hvalid'
  obtain ⟨ds, hds⟩ := hok haligned
  obtain ⟨ds', hds'⟩ := hok' haligned fun y hy =>
    Option.some.inj hy ▸ Green.aligned_of_parts (by decide)
  obtain ⟨-, hset, hfilling, -⟩ := hresult ds ds' hds hds'
  have hname : [1] ∈ anchorPaths ds := (mem_anchorPaths (hw.genuine.of_live hg) rfl hds).mpr
    ⟨rfl, _, rfl, rfl⟩
  have htext : typeless.text = "let :" ∧ simpleType.text = "T" :=
    ⟨Green.text_eq_join _, Green.text_eq_join _⟩
  exact ⟨_, c.store, typeless, simpleType, v, _, u, ds, ds', hoffers, htext.1, htext.2, hvalid, hv,
    rfl, rfl, hu, hvalid', hds, hds', hfilling _ _ rfl rfl rfl rfl,
    (hset _).mpr (.inl ⟨hname, by decide⟩)⟩

end Workspace

end Verbatim
