import Verbatim.Proofs.Cutting
import Verbatim.Proofs.Legality
import Verbatim.Proofs.Markers
import Verbatim.Proofs.Ordering

/-!
# Diagnostics of valid trees

In a valid tree whose texts can be cut, what is said about a marker is what the one rule says that
knows its context, or else the general message. The first pass over the markers reports those that a
rule knows, and the second all others, so each marker is reported once. Sorting keeps what was
reported. So the diagnostics come out, one for each outermost marker, by place.
-/

namespace Verbatim

namespace View

variable {r v m : View} {found : Finding}

theorem Stands.of_outermost (h : Stands r v) (hm : v.Outermost m) : Stands r m := by
  obtain ⟨path, hpath⟩ := mem_descendants.mp hm.1
  exact h.of_descend? hpath

/-- Every marker of a valid tree is legible. -/
theorem Stands.legible (h : Stands r m) (hr : r.green.Genuine) (hlegal : r.green.Legal)
    (ha : r.green.Aligned) : m.Legible := by
  have hparent {p : View} (hp : m.parent? = some p) : Stands r p ∧
      ∃ index, m.index? = some index ∧ index < p.green.slots.length := by
    cases m with
    | root store g => cases hp
    | child parent index offset g =>
      obtain rfl := Option.some.inj hp
      obtain ⟨hplaced, hslot, -⟩ := placed_child.mp h.placed
      exact ⟨⟨hplaced, h.top_eq⟩, index, rfl, (List.getElem?_eq_some_iff.mp hslot).1⟩
  refine ⟨fun _ => ?_, fun p hp => (hparent hp).2, fun p hp hkind => ?_, fun p hp t ht => ?_⟩
  · exact exists_innerText_of_aligned (h.genuine hr) (ha.of_within h.within)
  · obtain ⟨hstands, index, -, hlt⟩ := hparent hp
    have hfollows := hlegal p.green hstands.within (Green.isNode_of_lt hlt)
    have hgreen : p.green.kind = .funcDecl := hkind
    rw [Green.follows, hgreen] at hfollows
    have hlength := SlotSpec.length_of_allowAll hfollows
    rw [hlength]
    decide
  · have htoken := (Green.Within.of_slot ht).trans (hparent hp).1.within
    exact t.data.exists_trimmedText (hr.of_within htoken).check (ha t htoken)

theorem of_missingOperand (h : m.missingOperand = .ok (some found)) :
    m.isNode = true ∧ m.kind = .missingExpr := by
  unfold missingOperand at h
  split at h
  · next hguard =>
    simp only [Bool.and_eq_true, beq_iff_eq] at hguard
    exact ⟨hguard.1.1, hguard.2⟩
  · cases h

theorem of_unclosedDelimiter (h : m.unclosedDelimiter = .ok (some found)) : m.isNode = false := by
  unfold unclosedDelimiter at h
  split at h
  · cases h
  · next hguard => exact Bool.not_eq_true _ ▸ hguard

theorem of_missingBody (h : m.missingBody = .ok (some found)) :
    m.isNode = true ∧ m.kind = .codeBlock := by
  unfold missingBody at h
  split at h
  · next hguard =>
    simp only [Bool.and_eq_true, beq_iff_eq] at hguard
    exact ⟨hguard.1.1, hguard.2⟩
  · cases h

theorem of_topLevelCode (h : m.topLevelCode = .ok (some found)) :
    m.isNode = true ∧ m.kind = .unexpected := by
  unfold topLevelCode at h
  split at h
  · next hguard =>
    simp only [Bool.and_eq_true, beq_iff_eq] at hguard
    exact hguard.1
  · cases h

/-- Whether no marker is known to both of two rules. -/
def Apart (rule rule' : View → Except Fault (Option Finding)) : Prop :=
  ∀ m found found', rule m = .ok (some found) → rule' m ≠ .ok (some found')

/-- No marker is known to two rules. -/
theorem pairwise_apart_contextualRules : contextualRules.Pairwise Apart := by
  simp only [contextualRules, List.pairwise_cons, List.mem_cons, List.not_mem_nil, or_false,
    forall_eq_or_imp, forall_eq, false_implies, implies_true, List.Pairwise.nil, and_true]
  refine ⟨⟨?_, ?_, ?_⟩, ⟨?_, ?_⟩, ?_⟩ <;> intro m found found' h h'
  · cases (of_missingOperand h).1.symm.trans (of_unclosedDelimiter h')
  · cases (of_missingOperand h).2.symm.trans (of_missingBody h').2
  · cases (of_missingOperand h).2.symm.trans (of_topLevelCode h').2
  · cases (of_unclosedDelimiter h).symm.trans (of_missingBody h').1
  · cases (of_unclosedDelimiter h).symm.trans (of_topLevelCode h').1
  · cases (of_missingBody h).2.symm.trans (of_topLevelCode h').2

section Rules

variable {rule : View → Except Fault (Option Finding)}
  {rules : List (View → Except Fault (Option Finding))}

/-- Where one of some rules that are apart knows a marker, its finding is the first one. -/
theorem contextualFinding_eq_of_rule (hapart : rules.Pairwise Apart)
    (hok : ∀ rule ∈ rules, ∃ r, rule m = .ok r) (hrule : rule ∈ rules)
    (hfound : rule m = .ok (some found)) : m.contextualFinding rules = .ok (some found) := by
  induction rules with
  | nil => cases hrule
  | cons first rules ih =>
    obtain ⟨hfirst, hrest⟩ := List.pairwise_cons.mp hapart
    rcases List.mem_cons.mp hrule with rfl | hrule
    · rw [contextualFinding, hfound]
      rfl
    · obtain ⟨r, hr⟩ := hok first List.mem_cons_self
      cases r with
      | none =>
        rw [contextualFinding, hr]
        exact ih hrest (fun rule hmem => hok rule (List.mem_cons_of_mem _ hmem)) hrule
      | some other => exact absurd hfound (hfirst rule hrule m other found hr)

theorem contextualFinding_eq_none (h : ∀ rule ∈ rules, rule m = .ok none) :
    m.contextualFinding rules = .ok none := by
  induction rules with
  | nil => rfl
  | cons first rules ih =>
    rw [contextualFinding, h first List.mem_cons_self]
    exact ih fun rule hmem => h rule (List.mem_cons_of_mem _ hmem)

end Rules

/-- What is said about a marker. -/
def finding (m : View) : Except Fault Finding := do
  match ← m.contextualFinding contextualRules with
  | some found => return found
  | none => m.generalFinding

/-- About a marker that a rule knows, what this rule says is said. -/
theorem Legible.finding_eq_of_rule (h : m.Legible) {rule : View → Except Fault (Option Finding)}
    (hrule : rule ∈ contextualRules) (hfound : rule m = .ok (some found)) :
    m.finding = .ok found := by
  have hfirst := contextualFinding_eq_of_rule pairwise_apart_contextualRules
    (fun rule hmem => exists_rule h hmem) hrule hfound
  rw [finding, hfirst]
  rfl

theorem finding_eq_generalFinding (h : ∀ rule ∈ contextualRules, rule m = .ok none) :
    m.finding = m.generalFinding := by
  rw [finding, contextualFinding_eq_none h]
  rfl

/-- Whether a rule knows the context of a marker. -/
def isExplained (m : View) : Bool := (m.contextualFinding contextualRules).toOption.join.isSome

end View

namespace DiagnosticSink

variable {s : DiagnosticSink} {d : Diagnostic} {m : View} {markers : List View}

/-- The elements that were reported, in order. -/
def anchors (s : DiagnosticSink) : List View := s.diagnostics.map Diagnostic.anchor

/-- Whether all that was reported says what is to be said, and what was reported needs no further
report. -/
structure Settled (s : DiagnosticSink) : Prop where
  said : ∀ d ∈ s.diagnostics, d.anchor.finding = .ok (d.id, d.message)
  handled : ∀ v, s.isHandled v = true ↔ v.path ∈ s.anchors.map View.path

theorem settled_empty : Settled {} where
  said _ hd := absurd hd List.not_mem_nil
  handled v := by simp [isHandled, anchors]

theorem anchors_report (s : DiagnosticSink) (d : Diagnostic) :
    (s.report d).anchors = s.anchors ++ [d.anchor] := by
  simp [report, anchors]

theorem isHandled_report (s : DiagnosticSink) (d : Diagnostic) (v : View) :
    (s.report d).isHandled v = true ↔ s.isHandled v = true ∨ v.path = d.anchor.path := by
  have hlist : (s.report d).handled =
      if s.isHandled d.anchor then s.handled else d.anchor.path :: s.handled := by
    simp only [report, markHandled]
    split <;> rfl
  rw [isHandled, hlist]
  cases hhandled : s.isHandled d.anchor with
  | false => simp [isHandled, or_comm]
  | true =>
    have hsame (hpath : v.path = d.anchor.path) : s.isHandled v = true := by
      rwa [isHandled, hpath]
    exact ⟨.inl, fun h => h.elim id hsame⟩

theorem Settled.report (h : s.Settled) (hd : d.anchor.finding = .ok (d.id, d.message)) :
    (s.report d).Settled where
  said x hx := by
    rcases List.mem_append.mp hx with hx | hx
    · exact h.said x hx
    · exact List.mem_singleton.mp hx ▸ hd
  handled v := by
    rw [isHandled_report, anchors_report, h.handled, List.map_append, List.mem_append]
    simp

/-- A marker that a rule knows is reported in the first pass. -/
theorem Settled.reportContextual (h : s.Settled) (hm : m.Legible) :
    ∃ s', View.reportContextual s m = .ok s' ∧ s'.Settled ∧
      s'.anchors = s.anchors ++ [m].filter View.isExplained := by
  obtain ⟨r, hr⟩ := View.exists_contextualFinding hm _ (List.Subset.refl _)
  rw [View.reportContextual, hr]
  cases r with
  | none =>
    have hexplained : m.isExplained = false := by rw [View.isExplained, hr]; rfl
    exact ⟨s, rfl, h, by simp [hexplained]⟩
  | some found =>
    have hexplained : m.isExplained = true := by rw [View.isExplained, hr]; rfl
    have hfinding : m.finding = .ok found := by rw [View.finding, hr]; rfl
    exact ⟨_, rfl, h.report hfinding, by simp [hexplained, anchors_report]⟩

/-- A marker that no rule knows is reported in the second pass, if it needs a report. -/
theorem Settled.reportGeneral (h : s.Settled) (hm : m.Legible)
    (hhandled : s.isHandled m = m.isExplained) :
    ∃ s', View.reportGeneral s m = .ok s' ∧ s'.Settled ∧
      s'.anchors = s.anchors ++ [m].filter fun m => !m.isExplained := by
  rw [View.reportGeneral, hhandled]
  cases hexplained : m.isExplained with
  | true => exact ⟨s, rfl, h, by simp [hexplained]⟩
  | false =>
    obtain ⟨found, hfound⟩ := View.exists_generalFinding hm
    have hfinding : m.finding = .ok found := by
      obtain ⟨r, hr⟩ := View.exists_contextualFinding hm _ (List.Subset.refl _)
      rw [View.isExplained, hr] at hexplained
      cases r with
      | none =>
        rw [View.finding, hr]
        exact hfound
      | some other => cases hexplained
    rw [hfound]
    exact ⟨_, rfl, h.report hfinding, by simp [hexplained, anchors_report]⟩

/-- The first pass reports the markers that a rule knows. -/
theorem Settled.foldlM_reportContextual (h : s.Settled) (hm : ∀ m ∈ markers, m.Legible) :
    ∃ s', markers.foldlM View.reportContextual s = .ok s' ∧ s'.Settled ∧
      s'.anchors = s.anchors ++ markers.filter View.isExplained := by
  induction markers generalizing s with
  | nil => exact ⟨s, rfl, h, by simp⟩
  | cons m markers ih =>
    obtain ⟨s₁, hs₁, hsettled₁, hanchors₁⟩ := h.reportContextual (hm m List.mem_cons_self)
    obtain ⟨s₂, hs₂, hsettled₂, hanchors₂⟩ :=
      ih hsettled₁ fun u hu => hm u (List.mem_cons_of_mem _ hu)
    refine ⟨s₂, by rw [List.foldlM_cons, hs₁]; exact hs₂, hsettled₂, ?_⟩
    rw [hanchors₂, hanchors₁, List.append_assoc, ← List.filter_append, List.singleton_append]

/-- The second pass reports the markers that no rule knows. -/
theorem Settled.foldlM_reportGeneral (h : s.Settled) (hm : ∀ m ∈ markers, m.Legible)
    (hnodup : (markers.map View.path).Nodup)
    (hhandled : ∀ m ∈ markers, s.isHandled m = m.isExplained) :
    ∃ s', markers.foldlM View.reportGeneral s = .ok s' ∧ s'.Settled ∧
      s'.anchors = s.anchors ++ markers.filter fun m => !m.isExplained := by
  induction markers generalizing s with
  | nil => exact ⟨s, rfl, h, by simp⟩
  | cons m markers ih =>
    obtain ⟨hfresh, hnodup⟩ := List.nodup_cons.mp hnodup
    obtain ⟨s₁, hs₁, hsettled₁, hanchors₁⟩ :=
      h.reportGeneral (hm m List.mem_cons_self) (hhandled m List.mem_cons_self)
    have hhandled₁ : ∀ u ∈ markers, s₁.isHandled u = u.isExplained := by
      intro u hu
      have hapart : u.path ∉ ([m].filter fun m => !m.isExplained).map View.path := by
        intro hmem
        obtain ⟨x, hx, hpath⟩ := List.mem_map.mp hmem
        obtain rfl := List.mem_singleton.mp (List.mem_filter.mp hx).1
        exact hfresh (hpath ▸ List.mem_map_of_mem hu)
      rw [← hhandled u (List.mem_cons_of_mem _ hu), Bool.eq_iff_iff, hsettled₁.handled, h.handled,
        hanchors₁, List.map_append, List.mem_append, or_iff_left hapart]
    obtain ⟨s₂, hs₂, hsettled₂, hanchors₂⟩ :=
      ih hsettled₁ (fun u hu => hm u (List.mem_cons_of_mem _ hu)) hnodup hhandled₁
    refine ⟨s₂, by rw [List.foldlM_cons, hs₁]; exact hs₂, hsettled₂, ?_⟩
    rw [hanchors₂, hanchors₁, List.append_assoc, ← List.filter_append, List.singleton_append]

end DiagnosticSink

namespace View

/-- If each of the markers below a view is legible and has its own path, then each is reported
once. -/
theorem exists_settled_reported {v : View} (hlegible : ∀ m ∈ v.markers, m.Legible)
    (hnodup : (v.markers.map path).Nodup)
    (hinj : ∀ m ∈ v.markers, ∀ u ∈ v.markers, m.path = u.path → m = u) :
    ∃ s, v.reported = .ok s ∧ s.Settled ∧ s.anchors.Perm v.markers := by
  obtain ⟨s₁, hs₁, hsettled₁, hanchors₁⟩ :=
    DiagnosticSink.settled_empty.foldlM_reportContextual hlegible
  have hhandled : ∀ m ∈ v.markers, s₁.isHandled m = m.isExplained := by
    intro m hm
    rw [Bool.eq_iff_iff, hsettled₁.handled, hanchors₁]
    constructor
    · intro hpath
      obtain ⟨u, hu, hpath⟩ := List.mem_map.mp hpath
      obtain ⟨hu, hexplained⟩ := List.mem_filter.mp hu
      exact hinj u hu m hm hpath ▸ hexplained
    · intro hexplained
      exact List.mem_map_of_mem (List.mem_filter.mpr ⟨hm, hexplained⟩)
  obtain ⟨s₂, hs₂, hsettled₂, hanchors₂⟩ :=
    hsettled₁.foldlM_reportGeneral hlegible hnodup hhandled
  refine ⟨s₂, by rw [reported, hs₁]; exact hs₂, hsettled₂, ?_⟩
  rw [hanchors₂, hanchors₁]
  exact List.filter_append_perm _ _

end View

/-- Whether a diagnostic is listed no later than another: by where it starts, then by where it ends,
then by its condition. -/
def Diagnostic.NoLater (a b : Diagnostic) : Prop :=
  ∃ x y, a.span = .ok x ∧ b.span = .ok y ∧ (x.start < y.start ∨ x.start = y.start ∧
    (x.stop < y.stop ∨ x.stop = y.stop ∧ a.id.number ≤ b.id.number))

namespace DiagnosticSink

theorem placedLe_iff {p q : Text.Span × Diagnostic} :
    placedLe p q = true ↔ p.1.start < q.1.start ∨ p.1.start = q.1.start ∧
      (p.1.stop < q.1.stop ∨ p.1.stop = q.1.stop ∧ p.2.id.number ≤ q.2.id.number) := by
  simp [placedLe]

/-- Diagnostics with spans come out, all of them, by place. -/
theorem exists_finish_pairwise {s : DiagnosticSink}
    (h : ∀ d ∈ s.diagnostics, ∃ span, d.span = .ok span) :
    ∃ ds, s.finish = .ok ds ∧ ds.Perm s.diagnostics ∧ ds.Pairwise Diagnostic.NoLater := by
  obtain ⟨placed, hplaced, hsnd, hspans⟩ :=
    exists_mapM_span (P := fun span d => d.span = .ok span) (fun _ _ hd => hd) h
  refine ⟨(placed.mergeSort placedLe).map Prod.snd, by rw [finish, hplaced]; rfl, ?_, ?_⟩
  · rw [← hsnd]
    exact (List.mergeSort_perm placed placedLe).map Prod.snd
  · have hsorted : (placed.mergeSort placedLe).Pairwise fun p q => placedLe p q = true := by
      refine List.pairwise_mergeSort (fun a b c hab hbc => ?_) (fun a b => ?_) placed
      · rw [placedLe_iff] at *
        omega
      · rw [Bool.or_eq_true, placedLe_iff, placedLe_iff]
        omega
    rw [List.pairwise_map]
    refine hsorted.imp_of_mem fun hp hq hle => ?_
    exact ⟨_, _, hspans _ (List.mem_mergeSort.mp hp), hspans _ (List.mem_mergeSort.mp hq),
      placedLe_iff.mp hle⟩

end DiagnosticSink

/-- If the markers below a node are legible and have spans, then each of them is diagnosed once, and
what is found there is said. -/
theorem View.Stands.exists_diagnostics_said {r v : View} (h : Stands r v) (hr : r.green.Genuine)
    (hnode : v.isNode = true) (hlegible : ∀ m ∈ v.markers, m.Legible)
    (hspans : ∀ m ∈ v.markers, ∃ span, m.trimmedSpan = .ok span) :
    ∃ ds, v.diagnostics = .ok ds ∧ (ds.map Diagnostic.anchor).Perm v.markers ∧
      ∀ d ∈ ds, d.anchor.finding = .ok (d.id, d.message) := by
  have hgenuine := h.genuine hr
  have hstands : ∀ m ∈ v.markers, Stands r m := fun m hm =>
    h.of_outermost ((h.placed.mem_markers hgenuine hnode).mp hm)
  have hnodup := nodup_path_markers hgenuine hnode
  obtain ⟨s, hs, hsettled, hanchors⟩ := exists_settled_reported hlegible hnodup
    fun m hm u hu => (hstands m hm).eq_of_path (hstands u hu)
  obtain ⟨ds, hds, hperm, -⟩ := DiagnosticSink.exists_finish_pairwise fun d hd =>
    hspans d.anchor (hanchors.mem_iff.mp (List.mem_map_of_mem hd))
  refine ⟨ds, ?_, (hperm.map _).trans hanchors, fun d hd => ?_⟩
  · rw [diagnostics_eq, hs]
    exact hds
  · exact hsettled.said d (hperm.mem_iff.mp hd)

namespace Workspace

open Scene

/-- In every valid tree that is in use in a workspace that can be reached, and in which trivia ends
and begins between characters: of every node, diagnostics come out. They are about the outermost
markers below it, and about each of them once. A marker that a rule knows is diagnosed as this rule
says, and only the others in general. Where a diagnostic starts and ends lies between characters of
its marker. The diagnostics are listed by where they start, where they end and their conditions, and
there are none just if the node remembers no error. -/
theorem Reachable.outermost_markers_diagnosed {w : Workspace} (hw : w.Reachable) {g : Green}
    (hg : w.Live g) {tag : Nat} (hvalid : (View.root tag g).isValid = true) (haligned : g.Aligned)
    {v : View} (hv : v ∈ (View.root tag g).nodes) :
    ∃ ds, v.diagnostics = .ok ds ∧
      (∀ m, m ∈ ds.map Diagnostic.anchor ↔ v.Outermost m) ∧
      (ds.map fun d => d.anchor.path).Nodup ∧
      (∀ d ∈ ds,
        (∀ rule ∈ View.contextualRules, ∀ found, rule d.anchor = .ok (some found) →
          (d.id, d.message) = found) ∧
        ((∀ rule ∈ View.contextualRules, rule d.anchor = .ok none) →
          d.anchor.generalFinding = .ok (d.id, d.message))) ∧
      (∀ d ∈ ds, ∃ span, d.span = .ok span ∧ d.anchor.Cuts span) ∧
      ds.Pairwise Diagnostic.NoLater ∧
      (ds = [] ↔ v.hasError = false) := by
  have hgenuine : (View.root tag g).green.Genuine := hw.genuine.of_live hg
  have hlegal : (View.root tag g).green.Legal := (View.isValid_iff hgenuine).mp hvalid
  have hroot : View.Stands (.root tag g) (.root tag g) := ⟨trivial, rfl⟩
  obtain ⟨⟨path, hpath⟩, hnode⟩ := View.mem_nodes.mp hv
  have hstands := hroot.of_descend? hpath
  have hvgenuine := hstands.genuine hgenuine
  have hmarkers (m : View) : m ∈ v.markers ↔ v.Outermost m :=
    hstands.placed.mem_markers hvgenuine hnode
  have hmarkerStands : ∀ m ∈ v.markers, View.Stands (.root tag g) m := fun m hm =>
    hstands.of_outermost ((hmarkers m).mp hm)
  have hlegible : ∀ m ∈ v.markers, m.Legible := fun m hm =>
    (hmarkerStands m hm).legible hgenuine hlegal haligned
  have hnodup := View.nodup_path_markers hvgenuine hnode
  obtain ⟨s, hs, hsettled, hanchors⟩ := View.exists_settled_reported hlegible hnodup
    fun m hm u hu => (hmarkerStands m hm).eq_of_path (hmarkerStands u hu)
  have hspans : ∀ d ∈ s.diagnostics, ∃ span, d.span = .ok span ∧ d.anchor.Cuts span := by
    intro d hd
    have hanchor := hmarkerStands d.anchor (hanchors.mem_iff.mp (List.mem_map_of_mem hd))
    exact View.exists_cuts_trimmedSpan (hanchor.genuine hgenuine)
      (haligned.of_within hanchor.within)
  obtain ⟨ds, hds, hperm, hsorted⟩ := DiagnosticSink.exists_finish_pairwise fun d hd =>
    (hspans d hd).imp fun _ hspan => hspan.1
  have hall : (ds.map Diagnostic.anchor).Perm v.markers := (hperm.map _).trans hanchors
  refine ⟨ds, by rw [View.diagnostics_eq, hs]; exact hds, fun m => ?_, ?_, fun d hd => ?_,
    fun d hd => hspans d (hperm.mem_iff.mp hd), hsorted, ?_⟩
  · rw [hall.mem_iff, hmarkers]
  · have hpaths := hall.map View.path
    rw [List.map_map] at hpaths
    exact hpaths.nodup_iff.mpr hnodup
  · have hsaid := hsettled.said d (hperm.mem_iff.mp hd)
    have hknown := hlegible d.anchor (hall.mem_iff.mp (List.mem_map_of_mem hd))
    constructor
    · intro rule hrule found hfound
      exact Except.ok.inj (hsaid.symm.trans (hknown.finding_eq_of_rule hrule hfound))
    · intro hnone
      exact (View.finding_eq_generalFinding hnone).symm.trans hsaid
  · rw [← hstands.placed.markers_eq_nil_iff hvgenuine hnode, ← List.map_eq_nil_iff]
    exact ⟨fun hnil => (hnil ▸ hall).nil_eq.symm, fun hnil => (hnil ▸ hall).eq_nil⟩

/-- The tree of a minus sign after which an expression is missing. -/
def operandless : Green :=
  branch 2 .prefixExpr [some (word 0 .minus "-"), some (hole 1 .missingExpr)]

/-- After a minus sign an expression is missing, and this is what is diagnosed. -/
theorem Reachable.outermost_markers_diagnosed_operand :
    ∃ (w : Workspace) (g : Green) (m : View) (ds : List Diagnostic) (d : Diagnostic),
      w.Reachable ∧ w.Live g ∧ (View.root 0 g).isValid = true ∧ g.Aligned ∧
      View.root 0 g ∈ (View.root 0 g).nodes ∧ (View.root 0 g).Outermost m ∧
      (View.root 0 g).diagnostics = .ok ds ∧ d ∈ ds ∧ d.anchor = m ∧
      d.id = .missingExpressionAfterOperator := by
  have hw₁ := reachable_of_ok (@reachable_ofTrees [word 0 .minus "-"] rfl)
    (.missingNode .missingExpr) (inUse_of_found rfl)
    (Alloc.map_eq_of_ok (Alloc.missingNode_eq_small (by decide) (by decide)
      Std.HashMap.getElem?_empty))
  obtain ⟨w, hw, hg⟩ : ∃ w : Workspace, w.Reachable ∧ w.Live operandless :=
    exists_live_of_ok hw₁ (.node .prefixExpr operandless.slots)
      (inUse_of_found rfl) rfl
  have hvalid : (View.root 0 operandless).isValid = true := by decide +kernel
  have haligned : operandless.Aligned := Green.aligned_of_parts (by decide)
  have hv : View.root 0 operandless ∈ (View.root 0 operandless).nodes :=
    View.mem_nodes.mpr ⟨⟨[], rfl⟩, rfl⟩
  let m := View.child (.root 0 operandless) 1 1 (hole 1 .missingExpr)
  have hm : (View.root 0 operandless).Outermost m := by
    refine (View.Placed.outermost_iff (v := .root 0 operandless) trivial).mpr ⟨rfl, [1], rfl, ?_⟩
    intro p q hsplit hq a ha
    rcases List.append_eq_singleton_iff.mp hsplit.symm with ⟨rfl, -⟩ | ⟨-, rfl⟩
    · cases ha
      rfl
    · exact absurd rfl hq
  have hrule : View.missingOperand ∈ View.contextualRules := List.mem_cons_self
  obtain ⟨ds, hds, hanchors, -, hsaid, -⟩ :=
    hw.outermost_markers_diagnosed hg hvalid haligned hv
  obtain ⟨d, hd, hanchor⟩ := List.mem_map.mp ((hanchors m).mpr hm)
  have hfound : m.missingOperand =
      .ok (some (.missingExpressionAfterOperator, "expected an expression after `-`")) := rfl
  have hid := congrArg Prod.fst ((hsaid d hd).1 _ hrule _ (hanchor ▸ hfound))
  exact ⟨w, operandless, m, ds, d, hw, hg, hvalid, haligned, hv, hm, hds, hd, hanchor, hid⟩

end Workspace

end Verbatim
