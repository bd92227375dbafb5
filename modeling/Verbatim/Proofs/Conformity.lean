import Verbatim.Layout
import Verbatim.Proofs.Reading

/-!
# Derivations follow the layouts

The layouts say which slots a node has and what may stand in them; the grammar decides what it fills
them with. What a phrase can fill its slots with is computed from the phrase, so that the two tables
can be compared once and for all. A sketch conforms when all of its nodes follow their layouts, and
everything that is derived conforms.
-/

namespace Verbatim

/-- Whether a slot may hold an element of a kind, or stay empty. -/
def SlotSpec.admits (spec : SlotSpec) : Option Kind → Bool
  | none => spec.isOptional
  | some kind => spec.accepts.contains kind

/-- Whether a present node with this layout may have these slots. -/
def Layout.admits : Layout → List (Option Kind) → Bool
  | token, _ => false
  | fixed specs, kinds =>
    specs.length == kinds.length && (specs.zip kinds).all fun (spec, kind) => spec.admits kind
  | collection members, kinds => kinds.all fun kind => kind.any members.contains

namespace Sketch

/-- What stands in a slot. -/
def kind? : Sketch → Option Kind
  | token t => some t.kind
  | missing kind | node kind _ _ => some kind
  | absent => none

mutual
/-- Every node follows its layout, a late one was opened around an element, and unexpected text is
made of tokens. -/
def Conforms : Sketch → Prop
  | token t => t.kind.isToken = true
  | missing _ | absent => True
  | node kind late slots =>
    kind ≠ .tombstone ∧ kind.layout.admits (slots.map kind?) = true ∧
      (late = true → ∃ first rest, slots = first :: rest ∧ first.isElement) ∧
      (kind = .unexpected → ∃ t rest, slots = (t :: rest).map token) ∧ ConformAll slots
/-- Everything in some slots conforms. -/
def ConformAll : List Sketch → Prop
  | [] => True
  | s :: rest => s.Conforms ∧ ConformAll rest
end

theorem conformAll_iff {slots : List Sketch} : ConformAll slots ↔ ∀ s ∈ slots, s.Conforms := by
  induction slots with
  | nil => simp [ConformAll]
  | cons s rest ih => simp [ConformAll, ih]

/-- What a node that conforms holds conforms. -/
theorem Conforms.of_mem {kind : Kind} {late : Bool} {slots : List Sketch} {s : Sketch}
    (h : (node kind late slots).Conforms) (hs : s ∈ slots) : s.Conforms :=
  conformAll_iff.mp h.2.2.2.2 s hs

/-- An expression may stand where one is wanted. -/
theorem admits_of_isExpr {s : Sketch} (h : s.isExpr = true) (label : String) :
    (SlotSpec.expression label).admits s.kind? = true := by
  cases s with
  | token t | absent => cases h
  | missing kind =>
    obtain rfl := beq_iff_eq.mp h
    change KindSet.expressions.contains .missingExpr = true
    decide
  | node kind late slots =>
    change kind.isExpr = true at h
    change KindSet.expressions.contains kind = true
    revert h
    cases kind <;> decide

/-- Tokens that are set aside conform. -/
theorem conforms_unexpected {t : Token} {rest : List Token}
    (h : ∀ u ∈ t :: rest, u.kind.isToken = true) :
    (node .unexpected false ((t :: rest).map token)).Conforms := by
  refine ⟨by decide, ?_, nofun, fun _ => ⟨t, rest, rfl⟩, conformAll_iff.mpr fun s hs => ?_⟩
  · simp [Layout.admits, Kind.layout, kind?]
  · obtain ⟨t, ht, rfl⟩ := List.mem_map.mp hs
    exact h t ht

theorem conforms_binaryExpr {lhs rhs : Sketch} {t : Token} {power : Nat} (hlhs : lhs.Conforms)
    (hlexpr : lhs.isExpr = true) (ht : t.kind.isToken = true)
    (hpower : Grammar.bindingPower? t.kind = some power) (hrhs : rhs.Conforms)
    (hrexpr : rhs.isExpr = true) : (node .binaryExpr true [lhs, token t, rhs]).Conforms := by
  have hop : KindSet.binaryOperators.contains t.kind = true := by
    revert hpower
    cases t.kind <;> first | exact fun _ => rfl | exact nofun
  refine ⟨by decide, ?_, fun _ => ⟨_, _, rfl, isElement_of_isExpr hlexpr⟩, nofun, hlhs, ht, hrhs,
    trivial⟩
  simp only [Layout.admits, Kind.layout, List.map_cons, List.map_nil, List.zip_cons_cons,
    List.zip_nil_left, List.all_cons, List.all_nil, admits_of_isExpr hlexpr,
    admits_of_isExpr hrexpr, Bool.and_true, Bool.true_and]
  exact hop

theorem conforms_callExpr {callee clause : Sketch} (hcallee : callee.Conforms)
    (hexpr : callee.isExpr = true) (hclause : clause.Conforms)
    (hkind : clause.kind? = some .argClause) : (node .callExpr true [callee, clause]).Conforms := by
  refine ⟨by decide, ?_, fun _ => ⟨_, _, rfl, isElement_of_isExpr hexpr⟩, nofun, hcallee, hclause,
    trivial⟩
  simp only [Layout.admits, Kind.layout, List.map_cons, List.map_nil, List.zip_cons_cons,
    List.zip_nil_left, List.all_cons, List.all_nil, admits_of_isExpr hexpr, hkind]
  rfl

end Sketch

namespace Phrase

/-- The kinds that may stand where an expression is wanted. -/
def exprKinds : List (Option Kind) :=
  [some .binaryExpr, some .prefixExpr, some .parenExpr, some .callExpr, some .literalExpr,
    some .nameExpr, some .missingExpr]

mutual
/-- What a phrase can fill its slots with. -/
def kinds : Phrase → List (Option Kind)
  | token kind | missing kind | node kind _ => [some kind]
  | absent => [none]
  | either _ there other => there.kinds ++ other.kinds
  | seq parts => kindsOf parts
  | stray _ | recovery _ => [some .unexpected]
  | operators _ | prefixed => exprKinds
  | args => [some .arg]
  | params => [some .param]
  | stmts => [some .letDecl, some .returnStmt, some .exprStmt, some .unexpected]
  | items => [some .funcDecl, some .letDecl, some .unexpected]
/-- What several phrases can fill their slots with. -/
def kindsOf : List Phrase → List (Option Kind)
  | [] => []
  | x :: rest => x.kinds ++ kindsOf rest
end

/-- Whether a phrase always fills exactly one slot. -/
def isSlot : Phrase → Bool
  | token _ | missing _ | absent | node _ _ | stray _ | operators _ | prefixed => true
  | either _ there other => there.isSlot && other.isSlot
  | seq _ | recovery _ | args | params | stmts | items => false

theorem yields_of_isSlot : ∀ {x : Phrase}, x.isSlot = true → x.Yields fun _ => True
  | .token _, _ => fun _ _ => trivial
  | .missing _, _ | .absent, _ => trivial
  | .node _ _, _ | .stray _, _ => fun _ => trivial
  | .operators _, _ | .prefixed, _ => fun _ _ => trivial
  | .either _ _ _, h =>
    let ⟨hthere, hother⟩ := Bool.and_eq_true_iff.mp h
    ⟨yields_of_isSlot hthere, yields_of_isSlot hother⟩

end Phrase

/-- Whether parts fill the slots of a node with this layout as it declares them. -/
def Layout.declares : Layout → List Phrase → Bool
  | token, _ => false
  | fixed specs, parts =>
    specs.length == parts.length &&
      (specs.zip parts).all fun (spec, x) => x.isSlot && x.kinds.all spec.admits
  | collection members, parts => (Phrase.kindsOf parts).all fun kind => kind.any members.contains

mutual
/-- Whether the parts of every node of a phrase fill its slots as the layout of its kind declares
them. -/
def Phrase.isLaidOut : Phrase → Bool
  | .either _ there other => there.isLaidOut && other.isLaidOut
  | .seq parts => Phrase.areLaidOut parts
  | .node kind parts =>
    kind != .tombstone && kind != .unexpected && kind.layout.declares parts &&
      Phrase.areLaidOut parts
  | _ => true
/-- Whether the nodes of several phrases are laid out. -/
def Phrase.areLaidOut : List Phrase → Bool
  | [] => true
  | x :: rest => x.isLaidOut && Phrase.areLaidOut rest
end

namespace Goal

/-- As `Phrase.kinds`, also for what may follow an operand or a callee. -/
def kinds : Goal → List (Option Kind)
  | phrase x => x.kinds
  | links .. | calls .. => Phrase.exprKinds

/-- As `Phrase.isLaidOut`, also for what may follow an operand or a callee. -/
def isLaidOut : Goal → Bool
  | phrase x => x.isLaidOut
  | links .. | calls .. => true

end Goal

namespace Reads

variable {goal : Goal} {p q : Reader} {slots : List Sketch}

/-- A phrase fills its slots with what it can fill them with. -/
theorem kind_mem (h : Reads goal p slots q) (hheld : ∀ s ∈ goal.held, s.kind? ∈ Phrase.exprKinds) :
    ∀ s ∈ slots, s.kind? ∈ goal.kinds := by
  induction h with
  | token ht => simp [Sketch.kind?, Goal.kinds, Phrase.kinds, ht]
  | missing | absent | node _ _ | stray =>
    simp [Sketch.kind?, Goal.kinds, Phrase.kinds]
  | nil | calm _ | argsDone _ | paramsDone _ | stmtsDone _ | itemsDone _ => simp
  | there _ _ ih => exact fun s hs => List.mem_append_left _ (ih nofun s hs)
  | other _ _ ih => exact fun s hs => List.mem_append_right _ (ih nofun s hs)
  | rescue _ _ ih => exact ih nofun
  | cons _ _ ihx ihxs =>
    intro s hs
    rcases List.mem_append.mp hs with hs | hs
    · exact List.mem_append_left _ (ihx nofun s hs)
    · exact List.mem_append_right _ (ihxs nofun s hs)
  | operators _ _ ihfirst ihlinks => exact ihlinks (ihfirst nofun)
  | linksDone _ | linkRefused _ _ _ | callsDone _ | callRefused _ _ => exact hheld
  | link _ _ _ _ _ _ ih | call _ _ _ _ _ ih =>
    exact ih fun s hs => by simp [List.mem_singleton.mp hs, Sketch.kind?, Phrase.exprKinds]
  | tooDeep _ | negated _ _ _ _ =>
    simp [Sketch.kind?, Goal.kinds, Phrase.kinds, Phrase.exprKinds]
  | operand _ _ _ _ ihcallee ihcalls =>
    refine ihcalls fun s hs => ?_
    have hsub : ∀ k ∈ Phrase.primary.kinds, k ∈ Phrase.exprKinds := by decide
    exact hsub _ (ihcallee nofun s hs)
  | argMore _ _ _ _ _ ih | paramMore _ _ _ _ ih =>
    intro s hs
    rcases List.mem_cons.mp hs with rfl | hs
    · exact List.mem_singleton.mpr rfl
    · exact ih nofun s hs
  | argLast _ _ _ _ | paramLast _ _ _ =>
    intro s hs
    obtain rfl := List.mem_singleton.mp hs
    exact List.mem_singleton.mpr rfl
  | stmtsMore _ _ _ ihstmt ihmore =>
    intro s hs
    have hsub : ∀ k ∈ (Phrase.seq [.stmt, .recovery Grammar.nestingStop]).kinds,
        k ∈ Phrase.stmts.kinds := by decide
    rcases List.mem_append.mp hs with hs | hs
    · exact hsub _ (ihstmt nofun s hs)
    · exact ihmore nofun s hs
  | itemsMore _ _ _ ihitem ihmore =>
    intro s hs
    have hsub : ∀ k ∈ (Phrase.seq [.item, .recovery Grammar.itemFirst]).kinds,
        k ∈ Phrase.items.kinds := by decide
    rcases List.mem_append.mp hs with hs | hs
    · exact hsub _ (ihitem nofun s hs)
    · exact ihmore nofun s hs

/-- What a phrase fills its slots with, if nothing was read before. -/
theorem kind_mem_kinds {x : Phrase} (h : Reads x p slots q) : ∀ s ∈ slots, s.kind? ∈ x.kinds :=
  h.kind_mem nofun

/-- Parts that fill the slots of a layout one by one. -/
theorem admits_of_fixed {specs : List SlotSpec} {parts : List Phrase}
    (h : Reads (.seq parts : Phrase) p slots q)
    (hparts : (Layout.fixed specs).declares parts = true) :
    (Layout.fixed specs).admits (slots.map Sketch.kind?) = true := by
  induction specs generalizing parts p slots with
  | nil =>
    cases parts with
    | nil => cases h; rfl
    | cons x parts => simp [Layout.declares] at hparts
  | cons spec specs ih =>
    cases parts with
    | nil => simp [Layout.declares] at hparts
    | cons x parts =>
      cases h with
      | cons hx hxs =>
        simp only [Layout.declares, List.length_cons, List.zip_cons_cons, List.all_cons,
          Bool.and_eq_true, beq_iff_eq, Nat.add_right_cancel_iff] at hparts
        obtain ⟨hlen, ⟨hslot, hkinds⟩, hrest⟩ := hparts
        obtain ⟨s, rfl, -⟩ := hx.yields (Phrase.yields_of_isSlot hslot)
        have hfirst := List.all_eq_true.mp hkinds _ (hx.kind_mem_kinds s List.mem_cons_self)
        have htail := ih hxs (by simp [Layout.declares, hlen, hrest])
        simp only [Layout.admits, Bool.and_eq_true, beq_iff_eq] at htail
        simp [Layout.admits, hfirst, htail]

/-- Parts that a layout declares are filled as it admits. -/
theorem admits {layout : Layout} {parts : List Phrase}
    (h : Reads (.seq parts : Phrase) p slots q) (hparts : layout.declares parts = true) :
    layout.admits (slots.map Sketch.kind?) = true := by
  cases layout with
  | token => cases hparts
  | fixed specs => exact h.admits_of_fixed hparts
  | collection members =>
    rw [Layout.admits, List.all_map, List.all_eq_true]
    intro s hs
    exact List.all_eq_true.mp hparts _ (h.kind_mem_kinds s hs)

/-- A node conforms if its parts are declared and what they are filled with conforms. -/
theorem conforms_node {kind : Kind} {parts : List Phrase}
    (h : Reads (.seq parts : Phrase) p slots q)
    (hkind : kind ≠ .tombstone ∧ kind ≠ .unexpected) (hparts : kind.layout.declares parts = true)
    (hslots : ∀ s ∈ slots, s.Conforms) : (Sketch.node kind false slots).Conforms :=
  ⟨hkind.1, h.admits hparts, nofun, fun h => absurd h hkind.2, Sketch.conformAll_iff.mpr hslots⟩

/-- As `conforms_node`, where the last slot is added to others. -/
theorem conforms_member {kind : Kind} {parts : List Phrase} {last : Sketch}
    (h : Reads (.seq parts : Phrase) p (slots ++ [last]) q)
    (hkind : kind ≠ .tombstone ∧ kind ≠ .unexpected) (hparts : kind.layout.declares parts = true)
    (hslots : ∀ s ∈ slots, s.Conforms) (hlast : last.Conforms) :
    (Sketch.node kind false (slots ++ [last])).Conforms := by
  refine h.conforms_node hkind hparts fun s hs => ?_
  rcases List.mem_append.mp hs with hs | hs
  · exact hslots s hs
  · exact List.mem_singleton.mp hs ▸ hlast

/-- Everything that is derived conforms. -/
theorem conforms (h : Reads goal p slots q) (hgoal : goal.isLaidOut = true)
    (hp : ∀ t ∈ p.rest, t.kind.isToken = true) (hheld : ∀ s ∈ goal.held, s.Conforms ∧ s.isExpr) :
    ∀ s ∈ slots, s.Conforms := by
  induction h with
  | token => exact fun s hs => List.mem_singleton.mp hs ▸ hp _ List.mem_cons_self
  | missing | absent => exact fun s hs => List.mem_singleton.mp hs ▸ trivial
  | nil | calm _ | argsDone _ | paramsDone _ | stmtsDone _ | itemsDone _ => nofun
  | there _ _ ih => exact ih (Bool.and_eq_true_iff.mp hgoal).1 hp nofun
  | other _ _ ih => exact ih (Bool.and_eq_true_iff.mp hgoal).2 hp nofun
  | rescue _ _ ih => exact ih rfl hp nofun
  | cons hx _ ihx ihxs =>
    obtain ⟨hx', hxs'⟩ := Bool.and_eq_true_iff.mp hgoal
    intro s hs
    rcases List.mem_append.mp hs with hs | hs
    · exact ihx hx' hp nofun s hs
    · exact ihxs hxs' (fun t ht => hp t (hx.rest_suffix.subset ht)) nofun s hs
  | node hparts ih =>
    simp only [Goal.isLaidOut, Phrase.isLaidOut, Bool.and_eq_true, bne_iff_ne] at hgoal
    obtain ⟨⟨hkind, hdeclares⟩, hall⟩ := hgoal
    intro s hs
    obtain rfl := List.mem_singleton.mp hs
    exact hparts.conforms_node hkind hdeclares (ih hall hp nofun)
  | @stray t rest n stop =>
    intro s hs
    obtain rfl := List.mem_singleton.mp hs
    refine Sketch.conforms_unexpected fun u hu => hp u ?_
    exact (List.mem_cons.mp hu).elim (fun h => h ▸ List.mem_cons_self)
      fun h => List.mem_cons_of_mem _ ((List.takeWhile_sublist _).subset h)
  | operators hfirst _ ihfirst ihlinks =>
    refine ihlinks rfl (fun t ht => hp t (hfirst.rest_suffix.subset ht)) fun s hs => ?_
    obtain rfl := List.mem_singleton.mp hs
    exact ⟨ihfirst rfl hp nofun _ List.mem_cons_self, hfirst.isExpr_of_prefixed⟩
  | linksDone _ | linkRefused _ _ _ | callsDone _ | callRefused _ _ =>
    exact fun s hs => (hheld s hs).1
  | link hpower _ _ hrhs _ ihrhs ihlinks =>
    have htail := fun t ht => hp t (List.mem_cons_of_mem _ ht)
    refine ihlinks rfl (fun t ht => htail t (hrhs.rest_suffix.subset ht)) fun s hs => ?_
    obtain rfl := List.mem_singleton.mp hs
    obtain ⟨hlhs, hexpr⟩ := hheld _ List.mem_cons_self
    exact ⟨Sketch.conforms_binaryExpr hlhs hexpr (hp _ List.mem_cons_self) hpower
      (ihrhs rfl htail nofun _ List.mem_cons_self) hrhs.isExpr_of_operators, rfl⟩
  | tooDeep _ => exact fun s hs => List.mem_singleton.mp hs ▸ trivial
  | @negated t rest n operand q henter hminus hoperand ih =>
    intro s hs
    obtain rfl := List.mem_singleton.mp hs
    have hseq : Reads (.seq [.token .minus, .prefixed] : Phrase) ⟨t :: rest, n.enter.2⟩
        [.token t, operand] q := .cons (.token hminus) (.cons hoperand .nil)
    refine hseq.conforms_node (by decide) (by decide) fun s hs => ?_
    rcases List.mem_cons.mp hs with rfl | hs
    · exact hp _ List.mem_cons_self
    · exact ih rfl (fun t ht => hp t (List.mem_cons_of_mem _ ht)) nofun s hs
  | operand _ _ hcallee _ ihcallee ihcalls =>
    refine ihcalls rfl (fun t ht => hp t (hcallee.rest_suffix.subset ht)) fun s hs => ?_
    obtain ⟨_, hs', hexpr⟩ := hcallee.yields Phrase.yields_primary
    obtain rfl := List.mem_singleton.mp hs
    exact ⟨ihcallee (by decide) hp nofun _ List.mem_cons_self, List.singleton_inj.mp hs' ▸ hexpr⟩
  | call _ _ hclause _ ihclause ihcalls =>
    refine ihcalls rfl (fun t ht => hp t (hclause.rest_suffix.subset ht)) fun s hs => ?_
    obtain rfl := List.mem_singleton.mp hs
    obtain ⟨hcallee, hexpr⟩ := hheld _ List.mem_cons_self
    have hkind := hclause.kind_mem_kinds _ List.mem_cons_self
    exact ⟨Sketch.conforms_callExpr hcallee hexpr
      (ihclause (by decide) hp nofun _ List.mem_cons_self) (List.mem_singleton.mp hkind), rfl⟩
  | argMore _ harg hcomma _ iharg ihmore =>
    have hrest := fun t ht => hp t (harg.rest_suffix.subset ht)
    intro s hs
    rcases List.mem_cons.mp hs with rfl | hs
    · have hseq : Reads (.seq [.expr, .token .comma] : Phrase) _ _ _ :=
        .cons harg (.cons (.token hcomma) .nil)
      exact hseq.conforms_member (by decide) (by decide) (iharg rfl hp nofun)
        (hrest _ List.mem_cons_self)
    · exact ihmore rfl (fun t ht => hrest t (List.mem_cons_of_mem _ ht)) nofun s hs
  | argLast _ harg _ iharg =>
    intro s hs
    obtain rfl := List.mem_singleton.mp hs
    have hseq : Reads (.seq [.expr, .absent] : Phrase) _ _ _ := .cons harg (.cons .absent .nil)
    exact hseq.conforms_member (by decide) (by decide) (iharg rfl hp nofun) trivial
  | paramMore hparam hcomma _ ihparam ihmore =>
    have hrest := fun t ht => hp t (hparam.rest_suffix.subset ht)
    intro s hs
    rcases List.mem_cons.mp hs with rfl | hs
    · have hseq := hparam.seq_append (.cons (.token hcomma) .nil)
      exact hseq.conforms_member (by decide) (by decide) (ihparam (by decide) hp nofun)
        (hrest _ List.mem_cons_self)
    · exact ihmore rfl (fun t ht => hrest t (List.mem_cons_of_mem _ ht)) nofun s hs
  | paramLast hparam _ ihparam =>
    intro s hs
    obtain rfl := List.mem_singleton.mp hs
    have hseq := hparam.seq_append (.cons .absent .nil)
    exact hseq.conforms_member (by decide) (by decide) (ihparam (by decide) hp nofun) trivial
  | stmtsMore _ hstmt _ ihstmt ihmore | itemsMore _ hstmt _ ihstmt ihmore =>
    intro s hs
    rcases List.mem_append.mp hs with hs | hs
    · exact ihstmt (by decide) hp nofun s hs
    · exact ihmore rfl (fun t ht => hp t (hstmt.rest_suffix.subset ht)) nofun s hs

end Reads

end Verbatim
