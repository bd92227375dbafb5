import Verbatim.Proofs.Trimming

/-!
# Every marker is reported

The markers of the tree of a text are placeholders and unexpected text, and what the rules cut out
of the text around a marker can be cut. So each marker gets a finding, and the diagnostics of a text
always come out.
-/

namespace Verbatim

/-- A placeholder, or tokens that were set aside. -/
inductive Sketch.IsMark : Sketch → Prop
  | missing (kind : Kind) : IsMark (.missing kind)
  | stray {late : Bool} {t : Token} {rest : List Token} (hsolid : ∀ x ∈ t :: rest, x.content ≠ []) :
    IsMark (.node .unexpected late ((t :: rest).map .token))

namespace View

variable {whole s : Sketch} {v d : View} {before : List Token}

theorem isMarker_of_mem_markersAt (h : d ∈ v.markersAt) : d.isMarker = true := by
  unfold markersAt at h
  split at h
  · cases h
  · split at h
    · next hmarker => exact List.mem_singleton.mp h ▸ hmarker
    · have hmissing := (List.mem_filter.mp h).2
      simp only [Bool.and_eq_true] at hmissing
      simp [isMarker, hmissing.2]

/-- Markers show parts of the sketch. -/
theorem exists_shows_of_mem_markers (hv : Shows whole v s before) (hd : d ∈ v.markers) :
    d.isMarker = true ∧ ∃ t before', Shows whole d t before' := by
  rw [markers_eq] at hd
  obtain ⟨e, he, hd⟩ := List.mem_flatMap.mp hd
  refine ⟨isMarker_of_mem_markersAt hd, ?_⟩
  obtain ⟨t, before', ht⟩ := exists_shows_of_mem_entriesAt hv e (List.mem_filter.mp he).1
  unfold markersAt at hd
  split at hd
  · cases hd
  · split at hd
    · exact ⟨t, before', List.mem_singleton.mp hd ▸ ht⟩
    · exact exists_shows_of_mem_children ht (List.mem_filter.mp hd).1

/-- A marker shows a placeholder, or tokens that were set aside. -/
theorem Shows.isMark (h : Shows whole d s before) (hd : d.isMarker = true)
    (hsolid : ∀ t ∈ s.tokens, t.content ≠ []) : s.IsMark := by
  have hbuilt := h.built
  cases s with
  | token t =>
    obtain ⟨g, hg, hdata⟩ := hbuilt
    simp [isMarker, isMissing, isNode, Option.some.inj hg, Green.isMissing, Green.presence,
      Green.isNode, hdata, Token.stored] at hd
  | missing kind => exact .missing kind
  | absent => cases hbuilt
  | node kind late slots =>
    obtain ⟨id, built, hg, -⟩ := hbuilt
    obtain rfl : kind = .unexpected := by
      simpa [isMarker, isMissing, isNode, View.kind, Option.some.inj hg, Green.isMissing,
        Green.presence, Green.isNode, Green.kind] using hd
    obtain ⟨t, rest, rfl⟩ := h.conforms.2.2.2.1 rfl
    refine .stray fun x hx => hsolid x ?_
    rwa [Sketch.tokens, Sketch.tokensOf_map_token]

/-- What stands below the items of a file holds tokens of the items. -/
theorem Shows.exists_tokens_of_file {items : List Sketch} {eof : Token}
    (h : Shows (.file items eof) v s before) :
    s = .file items eof ∧ before = [] ∨ s = .token eof ∨
      ∃ after, Sketch.tokensOf items = before ++ (s.tokens ++ after) := by
  induction h with
  | root _ _ => exact .inl ⟨rfl, rfl⟩
  | @child v kind late front back s before g _ _ ih =>
    rcases ih with ⟨hfile, rfl⟩ | htoken | ⟨after, htokens⟩
    · rw [Sketch.file, Sketch.node.injEq] at hfile
      obtain ⟨-, -, hslots⟩ := hfile
      rcases front with _ | ⟨_, _ | ⟨_, front⟩⟩
      · obtain ⟨rfl, -⟩ := List.cons.inj hslots
        exact .inr (.inr ⟨[], by simp [Sketch.tokens, Sketch.tokensOf]⟩)
      · obtain ⟨rfl, -⟩ := List.cons.inj (List.cons.inj hslots).2
        exact .inr (.inl rfl)
      · simp at hslots
    · cases htoken
    · refine .inr (.inr ⟨Sketch.tokensOf back ++ after, ?_⟩)
      rw [htokens, Sketch.tokens, Sketch.tokensOf_append, Sketch.tokensOf]
      simp

end View

/-- The markers of the tree of a text stand between the tokens of the text. -/
theorem Green.Parsed.exists_of_mem_markers {g : Green} {text : String} {items : List Sketch}
    {n : Nesting} (h : g.Parsed text items n) {store : Nat} {d : View}
    (hd : d ∈ (View.root store g).markers) :
    ∃ s before after, View.Shows (.file items (tokenize text).eof) d s before ∧ s.IsMark ∧
      (tokenize text).tokens = before ++ (s.tokens ++ after) := by
  obtain ⟨hmarker, s, before, hs⟩ := View.exists_shows_of_mem_markers (h.shows store) hd
  have hitems : Sketch.tokensOf items = (tokenize text).tokens := by
    simpa [Goal.held, Sketch.tokensOf] using h.reads.tokensOf_append_rest
  rcases hs.exists_tokens_of_file with ⟨rfl, -⟩ | rfl | ⟨after, htokens⟩
  · obtain ⟨id, built, hg, -⟩ := hs.built
    simp [View.isMarker, View.isMissing, View.kind, Option.some.inj hg, Green.isMissing,
      Green.presence, Green.kind] at hmarker
  · obtain ⟨t, hg, hdata⟩ := hs.built
    simp [View.isMarker, View.isMissing, View.isNode, Option.some.inj hg, Green.isMissing,
      Green.presence, Green.isNode, hdata, Token.stored] at hmarker
  · rw [hitems] at htokens
    refine ⟨s, before, after, hs, hs.isMark hmarker fun t ht => ?_, htokens⟩
    exact (solid_of_mem_tokenize text t (by simp [htokens, ht])).content_ne_nil

namespace View

variable {whole s : Sketch} {v d : View} {before : List Token}

/-- The text of a marker can be cut out. -/
theorem exists_innerText (hs : s.IsMark) (h : s.Built (some d.green)) :
    ∃ text, d.innerText = .ok text := by
  cases hs with
  | missing kind =>
    refine ⟨"", ?_⟩
    have hslice : Text.slice? d.text 0 0 = some "" := by simp [Text.slice?, Text.splitBytes?]
    rw [innerText, trimmedSpan_of_missing h]
    simp only [bind, Except.bind, Nat.sub_self, hslice]
    rfl
  | stray hsolid => exact exists_innerText_of_stray h hsolid

/-- A slot that exists can be looked at, and a token in it can be cut. -/
theorem exists_tokenAt {index : Nat} (h : index < v.green.slots.length)
    (hcut : ∀ t, some (.token t) ∈ v.green.slots → ∃ text, t.data.trimmedText = .ok text) :
    ∃ c?, v.tokenAt index = .ok c? ∧ ∀ c, c? = some c → ∃ text, c.trimmedText = .ok text := by
  obtain ⟨slot, hslot⟩ : ∃ slot, v.green.slots[index]? = some slot :=
    ⟨_, List.getElem?_eq_getElem h⟩
  have hat : ∃ c?, v.slotAt index = .ok c? ∧ ∀ c, c? = some c → some c.green ∈ v.green.slots := by
    unfold slotAt Green.slot Green.slotOffset
    rw [hslot, if_pos (Nat.le_of_lt h)]
    cases slot with
    | none => exact ⟨none, rfl, nofun⟩
    | some g =>
      refine ⟨_, rfl, fun c hc => ?_⟩
      obtain rfl := Option.some.inj hc
      exact List.mem_of_getElem? hslot
  obtain ⟨c?, hc?, hmem⟩ := hat
  refine ⟨c?.filter fun c => !c.isNode, by rw [tokenAt, hc?]; rfl, fun c hc => ?_⟩
  obtain ⟨hsome, htoken⟩ := Option.filter_eq_some_iff.mp hc
  cases hg : c.green with
  | token t =>
    obtain ⟨text, htext⟩ := hcut t (hg ▸ hmem c hsome)
    exact ⟨text, by rw [trimmedText, hg]; exact htext⟩
  | node head slots => simp [isNode, hg, Green.isNode] at htoken

/-- The parent of a view shows the node that holds what the view shows. -/
theorem Shows.exists_of_parent {p : View} (h : Shows whole d s before) (hp : d.parent? = some p) :
    ∃ slots late index before', Shows whole p (.node p.kind late slots) before' ∧
      d.index? = some index ∧ index < p.green.slots.length ∧
      p.green.slots.length = slots.length := by
  cases h with
  | root _ _ => cases hp
  | @child _ kind late front back _ before _ hv _ =>
    cases hp
    obtain ⟨id, built, hg, hbuilt⟩ := hv.built
    have hg := Option.some.inj hg
    have hkind : p.kind = kind := by rw [View.kind, hg]; rfl
    have hlength : p.green.slots.length = (front ++ s :: back).length := by
      rw [hg, Green.slots, hbuilt.length_eq]
    refine ⟨_, late, front.length, before, hkind ▸ hv, rfl, ?_, hlength⟩
    rw [hlength, List.length_append, List.length_cons]
    omega

/-- Whether what the rules look at around a marker is there and can be cut. -/
structure Legible (d : View) : Prop where
  /-- The text of a node can be cut out. -/
  innerText : d.isNode = true → ∃ text, d.innerText = .ok text
  /-- It stands in a slot of its parent. -/
  index_lt : ∀ p, d.parent? = some p →
    ∃ index, d.index? = some index ∧ index < p.green.slots.length
  /-- A function around it has a slot for its name. -/
  name_lt : ∀ p, d.parent? = some p → p.kind = .funcDecl → 1 < p.green.slots.length
  /-- The tokens next to it can be cut. -/
  token : ∀ p, d.parent? = some p → ∀ t, some (.token t) ∈ p.green.slots →
    ∃ text, t.data.trimmedText = .ok text

/-- The markers of a sketch are legible. -/
theorem Shows.legible (hs : s.IsMark) (h : Shows whole d s before) : d.Legible where
  innerText _ := exists_innerText hs h.built
  index_lt p hp := by
    obtain ⟨slots, late, index, before', -, hindex, hlt, -⟩ := h.exists_of_parent hp
    exact ⟨index, hindex, hlt⟩
  name_lt p hp hkind := by
    obtain ⟨slots, late, index, before', hshows, -, -, hlength⟩ := h.exists_of_parent hp
    have hadmits := hshows.conforms.2.1
    rw [hkind] at hadmits
    have hslots := Layout.length_of_admits hadmits
    rw [List.length_map, ← hlength] at hslots
    rw [hslots]
    decide
  token p hp t ht := by
    obtain ⟨slots, late, index, before', hshows, -⟩ := h.exists_of_parent hp
    obtain ⟨s', hs'⟩ := hshows.built.exists_of_mem_slots ht
    exact exists_trimmedText (v := .root 0 (.token t)) hs' rfl

theorem exists_missingOperand (h : d.Legible) : ∃ r, d.missingOperand = .ok r := by
  unfold missingOperand
  split
  · cases hparent : d.parent? with
    | none => exact ⟨none, rfl⟩
    | some p =>
      obtain ⟨index, hindex, hlt⟩ := h.index_lt p hparent
      simp only [hindex]
      split
      · next operatorIndex hoperator =>
        have hle : operatorIndex < index := by
          split at hoperator
          · next hsome =>
            cases hsome
            cases hoperator
            decide
          · next hsome =>
            cases hsome
            cases hoperator
            decide
          · cases hoperator
        obtain ⟨c?, hc?, htext⟩ := exists_tokenAt (Nat.lt_trans hle hlt) (h.token p hparent)
        refine exists_bind_eq_ok hc? ?_
        cases c? with
        | none => exact ⟨none, rfl⟩
        | some c =>
          obtain ⟨text, htext⟩ := htext c rfl
          exact exists_bind_eq_ok htext ⟨_, rfl⟩
      · exact ⟨none, rfl⟩
  · exact ⟨none, rfl⟩

theorem exists_unclosedDelimiter (h : d.Legible) : ∃ r, d.unclosedDelimiter = .ok r := by
  unfold unclosedDelimiter
  split
  · exact ⟨none, rfl⟩
  · simp only
    split
    · cases hparent : d.parent? with
      | none => exact ⟨none, rfl⟩
      | some p =>
        obtain ⟨index, -, hlt⟩ := h.index_lt p hparent
        obtain ⟨c?, hc?, -⟩ := exists_tokenAt (Nat.zero_lt_of_lt hlt) (h.token p hparent)
        refine exists_bind_eq_ok hc? ?_
        cases c? with
        | none => exact ⟨none, rfl⟩
        | some c =>
          simp only
          split
          · exact ⟨none, rfl⟩
          · exact ⟨_, rfl⟩
    · exact ⟨none, rfl⟩

theorem exists_missingBody (h : d.Legible) : ∃ r, d.missingBody = .ok r := by
  unfold missingBody
  split
  · cases hparent : d.parent? with
    | none => exact ⟨none, rfl⟩
    | some p =>
      cases hkind : p.kind == .funcDecl with
      | false =>
        simp only [Option.filter, hkind]
        exact ⟨none, rfl⟩
      | true =>
        simp only [Option.filter, hkind]
        have hlt := h.name_lt p hparent (beq_iff_eq.mp hkind)
        obtain ⟨c?, hc?, htext⟩ := exists_tokenAt hlt (h.token p hparent)
        refine exists_bind_eq_ok hc? ?_
        split
        · next name hname =>
          obtain ⟨text, htext⟩ := htext name (Option.filter_eq_some_iff.mp hname).1
          exact exists_bind_eq_ok htext ⟨_, rfl⟩
        · exact ⟨_, rfl⟩
  · exact ⟨none, rfl⟩

theorem exists_topLevelCode (h : d.Legible) : ∃ r, d.topLevelCode = .ok r := by
  unfold topLevelCode
  split
  · next hguard =>
    simp only [Bool.and_eq_true] at hguard
    obtain ⟨text, htext⟩ := h.innerText hguard.1.1
    exact exists_bind_eq_ok htext ⟨_, rfl⟩
  · exact ⟨none, rfl⟩

/-- No rule fails at a legible marker. -/
theorem exists_rule (h : d.Legible) {rule : View → Except Fault (Option Finding)}
    (hrule : rule ∈ contextualRules) : ∃ r, rule d = .ok r := by
  simp only [contextualRules, List.mem_cons, List.not_mem_nil, or_false] at hrule
  rcases hrule with rfl | rfl | rfl | rfl
  · exact exists_missingOperand h
  · exact exists_unclosedDelimiter h
  · exact exists_missingBody h
  · exact exists_topLevelCode h

theorem exists_contextualFinding (h : d.Legible) :
    ∀ rules ⊆ contextualRules, ∃ r, d.contextualFinding rules = .ok r := by
  intro rules
  induction rules with
  | nil => exact fun _ => ⟨none, rfl⟩
  | cons rule rules ih =>
    intro hsub
    obtain ⟨r, hr⟩ := exists_rule h (hsub List.mem_cons_self)
    refine exists_bind_eq_ok hr ?_
    cases r with
    | none => exact ih fun x hx => hsub (List.mem_cons_of_mem _ hx)
    | some found => exact ⟨_, rfl⟩

theorem exists_generalFinding (h : d.Legible) : ∃ found, d.generalFinding = .ok found := by
  unfold generalFinding
  split
  · exact ⟨_, rfl⟩
  · next hnode =>
    split
    · obtain ⟨text, htext⟩ := h.innerText (by simpa using hnode)
      exact exists_bind_eq_ok htext ⟨_, rfl⟩
    · split
      · exact ⟨_, rfl⟩
      · exact ⟨_, rfl⟩

/-- A step of reporting succeeds, and adds nothing but a diagnostic about the marker. -/
def Reports (step : DiagnosticSink → View → Except Fault DiagnosticSink) (d : View) : Prop :=
  ∀ sink, ∃ sink', step sink d = .ok sink' ∧
    ∀ x ∈ sink'.diagnostics, x ∈ sink.diagnostics ∨ x.anchor = d

theorem anchor_of_mem_report {sink : DiagnosticSink} {x y : Diagnostic}
    (h : x ∈ (sink.report y).diagnostics) : x ∈ sink.diagnostics ∨ x.anchor = y.anchor := by
  rcases List.mem_append.mp h with h | h
  · exact .inl h
  · exact .inr (List.mem_singleton.mp h ▸ rfl)

theorem reports_contextual (h : d.Legible) : Reports reportContextual d := by
  intro sink
  obtain ⟨r, hr⟩ := exists_contextualFinding h _ (List.Subset.refl _)
  rw [reportContextual, hr]
  cases r with
  | none => exact ⟨sink, rfl, fun x hx => .inl hx⟩
  | some found => exact ⟨_, rfl, fun x hx => anchor_of_mem_report hx⟩

theorem reports_general (h : d.Legible) : Reports reportGeneral d := by
  intro sink
  unfold reportGeneral
  split
  · exact ⟨sink, rfl, fun x hx => .inl hx⟩
  · obtain ⟨found, hfound⟩ := exists_generalFinding h
    rw [hfound]
    exact ⟨_, rfl, fun x hx => anchor_of_mem_report hx⟩

/-- Reporting succeeds for a list of markers if it does for each of them. -/
theorem exists_foldlM_of_reports {step : DiagnosticSink → View → Except Fault DiagnosticSink}
    {markers : List View} (h : ∀ d ∈ markers, Reports step d) (sink : DiagnosticSink) :
    ∃ sink', markers.foldlM step sink = .ok sink' ∧
      ∀ x ∈ sink'.diagnostics, x ∈ sink.diagnostics ∨ x.anchor ∈ markers := by
  induction markers generalizing sink with
  | nil => exact ⟨sink, rfl, fun x hx => .inl hx⟩
  | cons d markers ih =>
    obtain ⟨sink₁, hstep, hnew⟩ := h d List.mem_cons_self sink
    obtain ⟨sink₂, hrest, hmore⟩ := ih (fun e he => h e (List.mem_cons_of_mem _ he)) sink₁
    refine ⟨sink₂, by rw [List.foldlM_cons, hstep]; exact hrest, fun x hx => ?_⟩
    rcases hmore x hx with hx | hx
    · rcases hnew x hx with hx | hanchor
      · exact .inl hx
      · exact .inr (List.mem_cons.mpr (.inl hanchor))
    · exact .inr (List.mem_cons_of_mem _ hx)

/-- Whatever stands at the markers is reported, and nothing is reported elsewhere. -/
theorem exists_reported (h : ∀ d ∈ v.markers, d.Legible) :
    ∃ sink, v.reported = .ok sink ∧ ∀ x ∈ sink.diagnostics, x.anchor ∈ v.markers := by
  have hcontextual : ∀ d ∈ v.markers, Reports reportContextual d := fun d hd =>
    reports_contextual (h d hd)
  have hgeneral : ∀ d ∈ v.markers, Reports reportGeneral d := fun d hd => reports_general (h d hd)
  obtain ⟨sink₁, hsink₁, hanchor₁⟩ := exists_foldlM_of_reports hcontextual {}
  obtain ⟨sink₂, hsink₂, hanchor₂⟩ := exists_foldlM_of_reports hgeneral sink₁
  refine ⟨sink₂, by rw [reported, hsink₁]; exact hsink₂, fun x hx => ?_⟩
  rcases hanchor₂ x hx with hx | hx
  · exact (hanchor₁ x hx).resolve_left (by simp)
  · exact hx

end View

end Verbatim
