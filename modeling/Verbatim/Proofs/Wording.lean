import Verbatim.Proofs.Findings
import Verbatim.Proofs.Lossless
import Verbatim.Proofs.Value

/-!
# What diagnostics say

Diagnostics never look at identities. The value of a tree has the diagnostics of the tree, each of
them about the value of what it was about: the same conditions and messages, at the same places and
in the same order, and where collecting them fails it fails with the same fault.
-/

namespace Verbatim

section Except

variable {ε α β γ δ : Type}

/-- Filtering what a function gives is filtering before it. -/
theorem filterM_map {test : β → Except ε Bool} (f : α → β) (l : List α) :
    (l.map f).filterM test = (l.filterM fun a => test (f a)).map (List.map f) := by
  have haux (found : List α) : (l.map f).filterAuxM test (found.map f) =
      (l.filterAuxM (fun a => test (f a)) found).map (List.map f) := by
    induction l generalizing found with
    | nil => rfl
    | cons a l ih =>
      rw [List.map_cons, List.filterAuxM, List.filterAuxM]
      rcases test (f a) with e | _ | _
      · rfl
      · exact ih found
      · exact ih (a :: found)
  have hfilter := haux []
  rw [List.map_nil] at hfilter
  simp only [List.filterM, hfilter]
  cases l.filterAuxM (fun a => test (f a)) [] with
  | error e => rfl
  | ok found => exact congrArg Except.ok List.map_reverse.symm

/-- Computations that agree up to two functions do so one after the other. -/
theorem mapM_map_of_map {x : α → Except ε β} {y : γ → Except ε δ} {f : α → γ} {g : β → δ}
    (h : ∀ a, y (f a) = (x a).map g) (l : List α) :
    (l.map f).mapM y = (l.mapM x).map (List.map g) := by
  induction l with
  | nil => rfl
  | cons a l ih =>
    rw [List.map_cons, List.mapM_cons, List.mapM_cons, h, ih]
    rcases x a with e | b
    · rfl
    · rcases l.mapM x with e | bs <;> rfl

/-- Steps that agree up to two functions lead to states that do. -/
theorem foldlM_map_of_map {step : β → α → Except ε β} {step' : δ → γ → Except ε δ} {f : α → γ}
    {g : β → δ} (h : ∀ b a, step' (g b) (f a) = (step b a).map g) (l : List α) (b : β) :
    (l.map f).foldlM step' (g b) = (l.foldlM step b).map g := by
  induction l generalizing b with
  | nil => rfl
  | cons a l ih =>
    rw [List.map_cons, List.foldlM_cons, List.foldlM_cons, h]
    rcases step b a with e | b'
    · rfl
    · exact ih b'

end Except

namespace Green

mutual
/-- The leaves of a value carry the same contents as those of the element. -/
theorem map_data_leaves_value : ∀ g : Green,
    g.value.leaves.map GreenToken.data = g.leaves.map GreenToken.data
  | token _ => rfl
  | node _ slots => map_data_leavesOf_values slots
theorem map_data_leavesOf_values : ∀ slots : List Slot,
    (leavesOf (values slots)).map GreenToken.data = (leavesOf slots).map GreenToken.data
  | [] => rfl
  | none :: rest => map_data_leavesOf_values rest
  | some g :: rest => by
    rw [values, leavesOf, leavesOf, List.map_append, List.map_append, map_data_leaves_value g,
      map_data_leavesOf_values rest]
end

/-- The value of an element spells the same text. -/
@[simp] theorem text_value (g : Green) : g.value.text = g.text := by
  have hleaves (g : Green) :
      g.text.toList = (g.leaves.map GreenToken.data).flatMap fun d => d.text.toList := by
    rw [g.toList_text, List.flatMap_map]
  apply String.toList_inj.mp
  rw [hleaves, hleaves, map_data_leaves_value]

end Green

namespace View

variable (v : View)

/-- A view of the value starts at the same place. -/
@[simp] theorem offset_value : v.value.offset = v.offset := by cases v <;> rfl

/-- The parent of a view of the value is the value of the parent. -/
@[simp] theorem parent?_value : v.value.parent? = v.parent?.map value := by cases v <;> rfl

@[simp] theorem index?_value : v.value.index? = v.index? := by cases v <;> rfl

/-- A view of the value is reached by the same path. -/
@[simp] theorem path_value : v.value.path = v.path := by rw [← relabel_value, path_relabel]

@[simp] theorem kind_value : v.value.kind = v.kind := by simp [kind]

@[simp] theorem isMissing_value : v.value.isMissing = v.isMissing := by simp [isMissing]

@[simp] theorem isNode_value : v.value.isNode = v.isNode := by simp [isNode]

/-- A view of the value covers the same part of the text. -/
@[simp] theorem span_value : v.value.span = v.span := by simp [span, width]

@[simp] theorem text_value : v.value.text = v.text := by simp [text]

/-- Looking for a token by its number finds the value of the one that is found in the tree. -/
theorem tokenAt_value (index : Nat) :
    v.value.tokenAt index = (v.tokenAt index).map (Option.map value) := by
  simpa only [relabel_value] using tokenAt_relabel .value v index

/-- The tokens below a view of the value are the values of those below the view. -/
theorem tokens_value : v.value.tokens = v.tokens.map value := by
  simpa only [relabel_value] using tokens_relabel .value v

/-- The markers of the value of a tree are the values of the markers of the tree. -/
theorem markers_value : v.value.markers = v.markers.map value := by
  simpa only [relabel_value] using markers_relabel .value v

/-- A token without its trivia spells the same, whatever its identity. -/
@[simp] theorem trimmedText_value : v.value.trimmedText = v.trimmedText := by
  unfold trimmedText
  rw [text_value, green_value]
  cases v.green <;> rfl

@[simp] theorem contentSpan_value : v.value.contentSpan = v.contentSpan := by
  unfold contentSpan
  rw [span_value, green_value]
  cases v.green <;> rfl

/-- The tokens with content are found in the value as they are in the tree. -/
theorem solidTokens_value : v.value.solidTokens = v.solidTokens.map (List.map value) := by
  rw [solidTokens, solidTokens, tokens_value, filterM_map]
  simp only [trimmedText_value]

/-- Without its trivia a view of the value covers the same part of the text. -/
@[simp] theorem trimmedSpan_value : v.value.trimmedSpan = v.trimmedSpan := by
  unfold trimmedSpan
  rw [isNode_value, contentSpan_value, offset_value, solidTokens_value]
  rcases v.solidTokens with fault | solid
  · rfl
  · simp only [Except.map, bind, Except.bind, List.head?_map, List.getLast?_map]
    rcases solid.head? with _ | first
    · rfl
    · rcases solid.getLast? with _ | last
      · rfl
      · simp only [Option.map_some, contentSpan_value]

@[simp] theorem innerText_value : v.value.innerText = v.innerText := by
  rw [innerText, innerText, trimmedSpan_value, text_value, offset_value]

/-- A search that goes on at a token of a slot finds the same in the value of a tree. -/
theorem tokenAt_value_bind {α : Type} {index : Nat} {f : Option View → Except Fault α}
    (h : ∀ c : View, f (some c.value) = f (some c)) :
    v.value.tokenAt index >>= f = v.tokenAt index >>= f := by
  rw [tokenAt_value]
  rcases v.tokenAt index with fault | _ | c
  · rfl
  · rfl
  · exact h c

/-- Whether an operand is missing can be seen from the value, and so can the operator. -/
theorem missingOperand_value : v.value.missingOperand = v.missingOperand := by
  unfold missingOperand
  simp only [isNode_value, isMissing_value, kind_value, parent?_value, index?_value]
  cases v.parent? with
  | none => rfl
  | some parent =>
    simp only [Option.map_some, kind_value]
    split
    · split
      · exact parent.tokenAt_value_bind fun operator => by simp
      · rfl
    · rfl

/-- Whether a delimiter was left open can be seen from the value. -/
theorem unclosedDelimiter_value : v.value.unclosedDelimiter = v.unclosedDelimiter := by
  unfold unclosedDelimiter
  simp only [isNode_value, kind_value, parent?_value]
  cases v.parent? with
  | none => rfl
  | some parent =>
    split
    · rfl
    · split
      · exact parent.tokenAt_value_bind fun first => by simp
      · rfl

/-- Whether a body is missing can be seen from the value. -/
theorem missingBody_value : v.value.missingBody = v.missingBody := by
  unfold missingBody
  simp only [isNode_value, isMissing_value, kind_value, parent?_value]
  cases v.parent? with
  | none => rfl
  | some parent =>
    cases hkind : parent.kind == .funcDecl with
    | false =>
      simp only [Option.map_some, Option.filter, kind_value, hkind]
      rfl
    | true =>
      simp only [Option.map_some, Option.filter, kind_value, hkind]
      split
      · refine parent.tokenAt_value_bind fun name => ?_
        cases hmissing : name.isMissing <;> simp [hmissing]
      · rfl

/-- Whether a statement stands outside all functions can be seen from the value. -/
theorem topLevelCode_value : v.value.topLevelCode = v.topLevelCode := by
  have hparent : v.value.parent?.any (·.kind == .itemList) =
      v.parent?.any (·.kind == .itemList) := by
    rw [parent?_value, Option.any_map]
    simp
  unfold topLevelCode
  rw [isNode_value, kind_value, hparent, innerText_value]

/-- The first contextual rule that finds something in the value is the first that does in the tree.
-/
theorem contextualFinding_value : ∀ rules ⊆ contextualRules,
    v.value.contextualFinding rules = v.contextualFinding rules := by
  intro rules
  induction rules with
  | nil => exact fun _ => rfl
  | cons rule rules ih =>
    intro hsub
    have hrule : rule v.value = rule v := by
      have hmem := hsub List.mem_cons_self
      simp only [contextualRules, List.mem_cons, List.not_mem_nil, or_false] at hmem
      rcases hmem with rfl | rfl | rfl | rfl
      · exact v.missingOperand_value
      · exact v.unclosedDelimiter_value
      · exact v.missingBody_value
      · exact v.topLevelCode_value
    rw [contextualFinding, contextualFinding, hrule,
      ih fun x hx => hsub (List.mem_cons_of_mem _ hx)]

/-- The general rules say the same about the value. -/
theorem generalFinding_value : v.value.generalFinding = v.generalFinding := by
  rw [generalFinding, generalFinding, isNode_value, kind_value, innerText_value]

end View

/-- The diagnostic about the value of what it is about. -/
def Diagnostic.value (d : Diagnostic) : Diagnostic := { d with anchor := d.anchor.value }

@[simp] theorem Diagnostic.span_value (d : Diagnostic) : d.value.span = d.span :=
  d.anchor.trimmedSpan_value

namespace DiagnosticSink

/-- The sink that holds the diagnostics about the values. -/
def value (s : DiagnosticSink) : DiagnosticSink :=
  { s with diagnostics := s.diagnostics.map Diagnostic.value }

/-- A marker counts as handled in the value of a sink just if it does in the sink. -/
theorem isHandled_value (s : DiagnosticSink) (v : View) :
    s.value.isHandled v.value = s.isHandled v := by
  rw [isHandled, isHandled, View.path_value]
  rfl

/-- Reporting the value of a diagnostic gives the value of the sink. -/
theorem report_value (s : DiagnosticSink) (d : Diagnostic) :
    s.value.report d.value = (s.report d).value := by
  have hhandled := s.isHandled_value d.anchor
  have hpath := d.anchor.path_value
  simp only [report, markHandled, Diagnostic.value, hhandled, hpath]
  split <;> simp [value, Diagnostic.value]

/-- Diagnostics are ordered by their places and their sorts, which are those of the values. -/
theorem finish_value (s : DiagnosticSink) :
    s.value.finish = s.finish.map (List.map Diagnostic.value) := by
  have hplaced := mapM_map_of_map
    (x := fun d : Diagnostic => do return (← d.span, d))
    (y := fun d : Diagnostic => do return (← d.span, d)) (f := Diagnostic.value)
    (g := fun p : Text.Span × Diagnostic => (p.1, p.2.value))
    (fun d => by rw [d.span_value]; cases d.span <;> rfl) s.diagnostics
  unfold finish
  rw [value, hplaced]
  cases s.diagnostics.mapM fun d => do return (← d.span, d) with
  | error fault => rfl
  | ok placed =>
    have hsort := List.map_mergeSort (r := placedLe) (s := placedLe) (l := placed)
      (f := fun p : Text.Span × Diagnostic => (p.1, p.2.value)) fun a _ b _ => rfl
    simp only [Except.map, bind, Except.bind, pure, Except.pure, ← hsort, List.map_map]
    rfl

end DiagnosticSink

namespace View

/-- What the contextual rules report about the value is the value of what they report. -/
theorem reportContextual_value (s : DiagnosticSink) (v : View) :
    reportContextual s.value v.value = (reportContextual s v).map DiagnosticSink.value := by
  rw [reportContextual, reportContextual, v.contextualFinding_value _ (List.Subset.refl _)]
  rcases v.contextualFinding contextualRules with fault | _ | ⟨id, message⟩
  · rfl
  · rfl
  · exact congrArg Except.ok (s.report_value ⟨id, message, v⟩)

/-- What the general rules report about the value is the value of what they report. -/
theorem reportGeneral_value (s : DiagnosticSink) (v : View) :
    reportGeneral s.value v.value = (reportGeneral s v).map DiagnosticSink.value := by
  rw [reportGeneral, reportGeneral, s.isHandled_value, v.generalFinding_value]
  split
  · rfl
  · rcases v.generalFinding with fault | ⟨id, message⟩
    · rfl
    · exact congrArg Except.ok (s.report_value ⟨id, message, v⟩)

/-- All that is reported about the value of a tree is the value of what is reported about it. -/
theorem reported_value (v : View) : v.value.reported = v.reported.map DiagnosticSink.value := by
  have hcontextual := foldlM_map_of_map reportContextual_value v.markers {}
  rw [reported, reported, markers_value]
  rw [show DiagnosticSink.value {} = {} from rfl] at hcontextual
  rw [hcontextual]
  rcases v.markers.foldlM reportContextual {} with fault | sink
  · rfl
  · exact foldlM_map_of_map reportGeneral_value v.markers sink

/-- The value of a tree has the diagnostics of the tree. -/
theorem diagnostics_value (v : View) :
    v.value.diagnostics = v.diagnostics.map (List.map Diagnostic.value) := by
  rw [diagnostics_eq, diagnostics_eq, reported_value]
  rcases v.reported with fault | sink
  · rfl
  · exact sink.finish_value

end View

end Verbatim
