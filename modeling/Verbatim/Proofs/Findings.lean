import Verbatim.Proofs.Shape

/-!
# Findings and texts

Which condition is found at a marker depends on the shape of the tree; texts and offsets only occur
in messages. A rule that answers for a marker answers for its shape, with the same condition. So
the diagnostics that are collected from a tree have the conditions and the places of those that are
collected from its shape, in the same order.
-/

namespace Verbatim

section Except

variable {ε α β : Type}

/-- Where two computations succeed one after the other, each of them does. -/
theorem exists_of_bind_eq_ok {x : Except ε α} {f : α → Except ε β} {b : β}
    (h : x >>= f = .ok b) : ∃ a, x = .ok a ∧ f a = .ok b := by
  cases x with
  | error e => cases h
  | ok a => exact ⟨a, rfl, h⟩

/-- Where a computation succeeds, and the next one does with what came out, both do. -/
theorem exists_bind_eq_ok {x : Except ε α} {f : α → Except ε β} {a : α} (hx : x = .ok a)
    (hf : ∃ b, f a = .ok b) : ∃ b, x >>= f = .ok b := by
  rw [hx]
  exact hf

/-- A filter whose tests all succeed. -/
theorem filterM_eq_ok {test : α → Except ε Bool} {keeps : α → Bool} {l : List α}
    (h : ∀ a ∈ l, test a = .ok (keeps a)) : l.filterM test = .ok (l.filter keeps) := by
  have haux (found : List α) :
      l.filterAuxM test found = .ok ((l.filter keeps).reverse ++ found) := by
    induction l generalizing found with
    | nil => rfl
    | cons a l ih =>
      have htail := ih (fun b hb => h b (List.mem_cons_of_mem _ hb))
        (cond (keeps a) (a :: found) found)
      have hstep : (a :: l).filterAuxM test found =
          l.filterAuxM test (cond (keeps a) (a :: found) found) := by
        rw [List.filterAuxM, h a List.mem_cons_self]
        rfl
      rw [hstep, htail]
      cases hkeeps : keeps a <;> simp [hkeeps]
  have hfilter : l.filterM test = (do let found ← l.filterAuxM test []; pure found.reverse) := rfl
  rw [hfilter, haux, List.append_nil]
  exact congrArg Except.ok (List.reverse_reverse _)

end Except

namespace View

/-- The tokens of a shape have no content. -/
theorem trimmedText_shape {v : View} (h : v.isNode = false) : v.shape.trimmedText = .ok "" := by
  cases hg : v.green with
  | token t =>
    rw [trimmedText, green_shape, hg]
    rfl
  | node head slots => simp [isNode, hg, Green.isNode] at h

/-- There is no text in a shape. -/
theorem innerText_shape {v : View} (h : v.isNode = true) : v.shape.innerText = .ok "" := by
  have hsolid : v.shape.solidTokens = .ok [] := by
    rw [solidTokens, tokens_shape]
    have hempty : ∀ t ∈ v.tokens.map shape,
        (do return !(← trimmedText t).isEmpty : Except Fault Bool) = .ok false := by
      intro t ht
      obtain ⟨u, hu, rfl⟩ := List.mem_map.mp ht
      rw [trimmedText_shape (by simpa using (List.mem_filter.mp hu).2)]
      rfl
    rw [filterM_eq_ok hempty]
    simp
  have hspan : v.shape.trimmedSpan = .ok (.emptyAt 0) := by
    rw [trimmedSpan, isNode_shape, if_pos h, hsolid, offset_shape]
    rfl
  have hslice : Text.slice? v.shape.text 0 0 = some "" := by simp [Text.slice?, Text.splitBytes?]
  rw [innerText, hspan, offset_shape]
  simp only [bind, Except.bind, Text.Span.emptyAt, Nat.sub_zero, hslice]
  rfl

/-- What is found by the number of a token is no node. -/
theorem isNode_of_tokenAt {v c : View} {index : Nat} (h : v.tokenAt index = .ok (some c)) :
    c.isNode = false := by
  obtain ⟨slot, -, hslot⟩ := exists_of_bind_eq_ok h
  obtain ⟨-, hc⟩ := Option.filter_eq_some_iff.mp (Except.ok.inj hslot)
  simpa using hc

/-- Where one search for a finding succeeds, another does too and finds the same condition. -/
def Echoes (x y : Except Fault (Option Finding)) : Prop :=
  ∀ r, x = .ok r → ∃ r', y = .ok r' ∧ r'.map Prod.fst = r.map Prod.fst

namespace Echoes

variable {x y x' y' : Except Fault (Option Finding)}

theorem nothing : Echoes (pure none) (pure none) := by
  rintro _ ⟨⟩
  exact ⟨_, rfl, rfl⟩

/-- Findings of the same sort echo each other, whatever their messages. -/
theorem finding {id : DiagnosticId} {message message' : String} :
    Echoes (pure (some (id, message))) (pure (some (id, message'))) := by
  rintro _ ⟨⟩
  exact ⟨_, rfl, rfl⟩

/-- A choice echoes another if both branches do. -/
theorem ite {p : Prop} [Decidable p] (hpos : Echoes x y) (hneg : Echoes x' y') :
    Echoes (if p then x else x') (if p then y else y') := by
  split
  · exact hpos
  · exact hneg

/-- What follows echoes if it does for whatever came first. -/
theorem bind {α β : Type} {a : Except Fault α} {b : Except Fault β}
    {f : α → Except Fault (Option Finding)} {g : β → Except Fault (Option Finding)}
    (h : ∀ i, a = .ok i → ∃ j, b = .ok j ∧ Echoes (f i) (g j)) :
    Echoes (a >>= f) (b >>= g) := by
  intro r hr
  obtain ⟨i, ha, hf⟩ := exists_of_bind_eq_ok hr
  obtain ⟨j, hb, hechoes⟩ := h i ha
  obtain ⟨r', hg, hfst⟩ := hechoes r hf
  exact ⟨r', by rw [hb]; exact hg, hfst⟩

/-- A search that goes on at a token of a slot. -/
theorem tokenAt {v : View} {index : Nat} {f g : Option View → Except Fault (Option Finding)}
    (hnone : Echoes (f none) (g none))
    (hsome : ∀ c : View, c.isNode = false → Echoes (f (some c)) (g (some c.shape))) :
    Echoes (v.tokenAt index >>= f) (v.shape.tokenAt index >>= g) := by
  refine .bind fun c? hc => ⟨c?.map shape, by rw [tokenAt_shape, hc]; rfl, ?_⟩
  cases c? with
  | none => exact hnone
  | some c => exact hsome c (isNode_of_tokenAt hc)

end Echoes

/-- Whether an operand is missing can be seen from the shape. -/
theorem echoes_missingOperand (v : View) : Echoes v.missingOperand v.shape.missingOperand := by
  unfold missingOperand
  simp only [isNode_shape, isMissing_shape, kind_shape, parent?_shape, index?_shape]
  refine .ite ?_ .nothing
  cases v.parent? with
  | none => exact .nothing
  | some parent =>
    simp only [Option.map_some, kind_shape]
    split
    · refine .tokenAt .nothing fun operator hoperator => .bind fun text _ => ⟨"", ?_, .finding⟩
      exact trimmedText_shape hoperator
    · exact .nothing

/-- Whether a delimiter was left open can be seen from the shape. -/
theorem echoes_unclosedDelimiter (v : View) :
    Echoes v.unclosedDelimiter v.shape.unclosedDelimiter := by
  unfold unclosedDelimiter
  simp only [isNode_shape, kind_shape, parent?_shape]
  refine .ite .nothing ?_
  split
  · cases v.parent? with
    | none => exact .nothing
    | some parent =>
      refine .tokenAt .nothing fun first _ => ?_
      simp only [kind_shape, isMissing_shape]
      exact .ite .nothing .finding
  · exact .nothing

/-- Whether a body is missing can be seen from the shape. -/
theorem echoes_missingBody (v : View) : Echoes v.missingBody v.shape.missingBody := by
  unfold missingBody
  simp only [isNode_shape, isMissing_shape, kind_shape, parent?_shape]
  refine .ite ?_ .nothing
  cases v.parent? with
  | none => exact .nothing
  | some parent =>
    cases hkind : parent.kind == .funcDecl with
    | false =>
      simp only [Option.map_some, Option.filter, kind_shape, hkind]
      exact .nothing
    | true =>
      simp only [Option.map_some, Option.filter, kind_shape, hkind]
      refine .tokenAt .finding fun name hname => ?_
      rcases Bool.eq_false_or_eq_true name.isMissing with hmissing | hmissing
      · simp only [isMissing_shape, hmissing]
        exact .finding
      · simp only [isMissing_shape, hmissing]
        exact .bind fun text _ => ⟨"", trimmedText_shape hname, .finding⟩

/-- Whether code stands outside all functions can be seen from the shape. -/
theorem echoes_topLevelCode (v : View) : Echoes v.topLevelCode v.shape.topLevelCode := by
  have hparent : v.shape.parent?.any (·.kind == .itemList) =
      v.parent?.any (·.kind == .itemList) := by
    rw [parent?_shape, Option.any_map]
    simp
  unfold topLevelCode
  rw [isNode_shape, kind_shape, hparent]
  cases hnode : v.isNode with
  | false => exact .nothing
  | true => exact .ite (.bind fun text _ => ⟨"", innerText_shape hnode, .finding⟩) .nothing

/-- The first contextual rule that finds something in the shape is the first that does in the tree.
-/
theorem echoes_contextualFinding (v : View) :
    ∀ rules ⊆ contextualRules,
      Echoes (v.contextualFinding rules) (v.shape.contextualFinding rules) := by
  intro rules
  induction rules with
  | nil => exact fun _ => .nothing
  | cons rule rules ih =>
    intro hsub
    have hrule : Echoes (rule v) (rule v.shape) := by
      have hmem := hsub List.mem_cons_self
      simp only [contextualRules, List.mem_cons, List.not_mem_nil, or_false] at hmem
      rcases hmem with rfl | rfl | rfl | rfl
      · exact v.echoes_missingOperand
      · exact v.echoes_unclosedDelimiter
      · exact v.echoes_missingBody
      · exact v.echoes_topLevelCode
    refine .bind fun r hr => ?_
    obtain ⟨r', hr', hfst⟩ := hrule r hr
    refine ⟨r', hr', ?_⟩
    cases r with
    | none =>
      obtain rfl := Option.map_eq_none_iff.mp hfst
      exact ih fun x hx => hsub (List.mem_cons_of_mem _ hx)
    | some found =>
      obtain ⟨found', rfl, hid⟩ := Option.map_eq_some_iff.mp hfst
      obtain ⟨id, message⟩ := found
      obtain ⟨_, message'⟩ := found'
      obtain rfl : _ = id := hid
      exact .finding

/-- The general rules find the same sort of thing in the shape. -/
theorem generalFinding_shape {v : View} {found : Finding} (h : v.generalFinding = .ok found) :
    ∃ found', v.shape.generalFinding = .ok found' ∧ found'.1 = found.1 := by
  unfold generalFinding at h ⊢
  rw [isNode_shape, kind_shape]
  cases hnode : v.isNode with
  | false =>
    rw [hnode] at h
    cases h
    exact ⟨_, rfl, rfl⟩
  | true =>
    rw [hnode] at h
    simp only [Bool.not_true, Bool.false_eq_true, if_false] at h ⊢
    split at h
    · next hkind =>
      obtain ⟨text, -, hfound⟩ := exists_of_bind_eq_ok h
      cases hfound
      rw [if_pos hkind, innerText_shape hnode]
      exact ⟨_, rfl, rfl⟩
    · next hkind =>
      rw [if_neg hkind]
      split at h
      · next hexpr =>
        cases h
        rw [if_pos hexpr]
        exact ⟨_, rfl, rfl⟩
      · next hexpr =>
        cases h
        rw [if_neg hexpr]
        exact ⟨_, rfl, rfl⟩

end View

/-- The condition of a diagnostic and the shape of what it is about. -/
def Diagnostic.gist (d : Diagnostic) : DiagnosticId × View := (d.id, d.anchor.shape)

namespace DiagnosticSink

/-- A sink that holds, of the shapes of some elements, what another one holds of the elements. -/
structure Mirrors (s t : DiagnosticSink) : Prop where
  handled : t.handled = s.handled
  diagnostics : (t.diagnostics.map fun d => (d.id, d.anchor)) = s.diagnostics.map Diagnostic.gist

variable {s t : DiagnosticSink}

/-- A marker counts as handled in both sinks or in none. -/
theorem Mirrors.isHandled (h : s.Mirrors t) (v : View) : t.isHandled v.shape = s.isHandled v := by
  rw [DiagnosticSink.isHandled, DiagnosticSink.isHandled, h.handled, View.path_shape]

/-- Sinks go on mirroring each other when the same is reported to both. -/
theorem Mirrors.report (h : s.Mirrors t) (id : DiagnosticId) (message message' : String)
    (v : View) : (s.report ⟨id, message, v⟩).Mirrors (t.report ⟨id, message', v.shape⟩) := by
  constructor
  · simp only [DiagnosticSink.report, markHandled, h.isHandled]
    split
    · exact h.handled
    · simp only [h.handled, View.path_shape]
  · simp only [DiagnosticSink.report, List.map_append, h.diagnostics]
    rfl

/-- Steps that respect mirrored sinks, one for each marker. -/
theorem Mirrors.foldlM {step : DiagnosticSink → View → Except Fault DiagnosticSink}
    {markers : List View} {s' : DiagnosticSink} (h : s.Mirrors t)
    (hs : markers.foldlM step s = .ok s')
    (hstep : ∀ {s t s' : DiagnosticSink} {v : View}, s.Mirrors t → step s v = .ok s' →
      ∃ t', step t v.shape = .ok t' ∧ s'.Mirrors t') :
    ∃ t', (markers.map View.shape).foldlM step t = .ok t' ∧ s'.Mirrors t' := by
  induction markers generalizing s t with
  | nil =>
    cases hs
    exact ⟨t, rfl, h⟩
  | cons v markers ih =>
    rw [List.foldlM_cons] at hs
    obtain ⟨s₁, hv, hrest⟩ := exists_of_bind_eq_ok hs
    obtain ⟨t₁, ht₁, hmirrors⟩ := hstep h hv
    obtain ⟨t', ht', hmirrors'⟩ := ih hmirrors hrest
    refine ⟨t', ?_, hmirrors'⟩
    rw [List.map_cons, List.foldlM_cons, ht₁]
    exact ht'

end DiagnosticSink

namespace View

open DiagnosticSink

/-- What the contextual rules report is mirrored. -/
theorem reportContextual_shape {s t s' : DiagnosticSink} {v : View} (h : s.Mirrors t)
    (hs : reportContextual s v = .ok s') :
    ∃ t', reportContextual t v.shape = .ok t' ∧ s'.Mirrors t' := by
  obtain ⟨found, hfound, hs⟩ := exists_of_bind_eq_ok hs
  obtain ⟨found', hfound', hfst⟩ := v.echoes_contextualFinding _ (List.Subset.refl _) found hfound
  rw [reportContextual, hfound']
  cases found with
  | none =>
    obtain rfl := Option.map_eq_none_iff.mp hfst
    cases hs
    exact ⟨t, rfl, h⟩
  | some found =>
    obtain ⟨⟨id', message'⟩, rfl, hid⟩ := Option.map_eq_some_iff.mp hfst
    obtain ⟨id, message⟩ := found
    obtain rfl : id' = id := hid
    cases hs
    exact ⟨_, rfl, h.report ..⟩

/-- What the general rules report is mirrored. -/
theorem reportGeneral_shape {s t s' : DiagnosticSink} {v : View} (h : s.Mirrors t)
    (hs : reportGeneral s v = .ok s') :
    ∃ t', reportGeneral t v.shape = .ok t' ∧ s'.Mirrors t' := by
  unfold reportGeneral at hs ⊢
  rw [h.isHandled]
  split at hs
  · next hhandled =>
    cases hs
    exact ⟨t, if_pos hhandled, h⟩
  · next hhandled =>
    obtain ⟨⟨id, message⟩, hfound, hs⟩ := exists_of_bind_eq_ok hs
    obtain ⟨⟨_, message'⟩, hfound', rfl⟩ := generalFinding_shape hfound
    cases hs
    rw [if_neg hhandled, hfound']
    exact ⟨_, rfl, h.report ..⟩

/-- The diagnostics of everything below a view, as they are reported. -/
def reported (v : View) : Except Fault DiagnosticSink := do
  let sink ← v.markers.foldlM reportContextual {}
  v.markers.foldlM reportGeneral sink

/-- Diagnostics are what is reported, put in order. -/
theorem diagnostics_eq (v : View) : v.diagnostics = v.reported >>= finish := by
  rw [diagnostics, reported]
  cases v.markers.foldlM reportContextual {} <;> rfl

/-- What is reported of a tree is reported of its shape. -/
theorem reported_shape {v : View} {s : DiagnosticSink} (h : v.reported = .ok s) :
    ∃ t, v.shape.reported = .ok t ∧ s.Mirrors t := by
  obtain ⟨s₁, hcontextual, hgeneral⟩ := exists_of_bind_eq_ok h
  have hempty : Mirrors {} {} := ⟨rfl, rfl⟩
  obtain ⟨t₁, ht₁, hmirrors₁⟩ := hempty.foldlM hcontextual reportContextual_shape
  obtain ⟨t, ht, hmirrors⟩ := hmirrors₁.foldlM hgeneral reportGeneral_shape
  refine ⟨t, ?_, hmirrors⟩
  rw [reported, markers_shape, ht₁]
  exact ht

/-- The same conditions are reported of the same places if two trees have the same shape. -/
theorem map_gist_reported {v w : View} (hshape : v.shape = w.shape) {s t : DiagnosticSink}
    (hv : v.reported = .ok s) (hw : w.reported = .ok t) :
    s.diagnostics.map Diagnostic.gist = t.diagnostics.map Diagnostic.gist := by
  obtain ⟨u, hu, hs⟩ := reported_shape hv
  obtain ⟨u', hu', ht⟩ := reported_shape hw
  obtain rfl : u = u' := Except.ok.inj (hu.symm.trans (hshape ▸ hu'))
  exact hs.diagnostics.symm.trans ht.diagnostics

end View

end Verbatim
