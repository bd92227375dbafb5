import Verbatim.Proofs.Everywhere

/-!
# How operators group

The grammar reads operators by their binding powers: an operand on the right is joined by operators
that bind tighter only, and what was joined so far becomes the operand on the left. In a tree this
shows as the usual reading. Products bind tighter than sums, operators that bind alike group to the
left, a sign binds tighter than every operator, and only a call, a name, a number or an expression
in parentheses is called. It holds of malformed texts as well, also where the nesting limit cuts an
expression off.
-/

namespace Verbatim

namespace Kind

/-- Whether a token adds or subtracts. -/
def isSum (kind : Kind) : Bool := kind == .plus || kind == .minus

/-- Whether a token multiplies or divides. -/
def isProduct (kind : Kind) : Bool := kind == .star || kind == .slash

/-- Whether an operator binds tighter than another. -/
def bindsTighter (a b : Kind) : Bool := a.isProduct && b.isSum

/-- Whether something that was read can be called. -/
def isCallable (kind : Kind) : Bool :=
  kind == .nameExpr || kind == .literalExpr || kind == .parenExpr || kind == .callExpr

/-- Whether an expression is put together from others by an operator or a call. -/
def isOperation (kind : Kind) : Bool :=
  kind == .binaryExpr || kind == .prefixExpr || kind == .callExpr

theorem isToken_eq_false_of_isOperation {kind : Kind} (h : kind.isOperation = true) :
    kind.isToken = false := by
  cases kind <;> first | rfl | cases h

end Kind

namespace Grammar

variable {a b : Kind} {x y : Nat}

/-- Sums bind with power one, and products with power two. -/
theorem power_cases (h : bindingPower? a = some x) :
    a.isSum = true ∧ a.isProduct = false ∧ x = 1 ∨
      a.isProduct = true ∧ a.isSum = false ∧ x = 2 := by
  cases a
  case plus | minus => cases h; exact .inl ⟨rfl, rfl, rfl⟩
  case star | slash => cases h; exact .inr ⟨rfl, rfl, rfl⟩
  all_goals cases h

/-- The tighter of two operators is the one with the larger power. -/
theorem bindsTighter_iff_lt (ha : bindingPower? a = some x) (hb : bindingPower? b = some y) :
    a.bindsTighter b = true ↔ y < x := by
  rcases power_cases ha with ⟨hsum, hproduct, rfl⟩ | ⟨hproduct, hsum, rfl⟩ <;>
    rcases power_cases hb with ⟨hsum', hproduct', rfl⟩ | ⟨hproduct', hsum', rfl⟩ <;>
      simp [Kind.bindsTighter, hsum', hproduct]

end Grammar

namespace Sketch

open Grammar

/-- How tightly the operator between two operands binds. -/
def operatorPower : List Sketch → Nat
  | [_, token t, _] => (bindingPower? t.kind).getD 0
  | _ => 0

/-- How tightly the outermost operator of an expression binds, if operands are joined there. -/
def power? : Sketch → Option Nat
  | node kind _ slots => if kind = .binaryExpr then some (operatorPower slots) else none
  | token _ | missing _ | absent => none

/-- Whether the expression can be called. -/
def isCallable : Sketch → Bool
  | node kind _ _ => kind.isCallable
  | token _ | missing _ | absent => false

/-- Operators group as their powers say, here. -/
def Grouped : Sketch → Prop
  | node .binaryExpr _ slots => ∃ lhs t rhs power, slots = [lhs, token t, rhs] ∧
    bindingPower? t.kind = some power ∧ (∀ inner ∈ lhs.power?, power ≤ inner) ∧
    ∀ inner ∈ rhs.power?, power < inner
  | node .prefixExpr _ slots => ∃ t operand, slots = [token t, operand] ∧ operand.power? = none
  | node .callExpr _ slots => ∃ callee clause, slots = [callee, clause] ∧ callee.isCallable = true
  | missing kind => kind.isOperation = false
  | _ => True

/-- Operators group as their powers say, here and below. -/
def AllGrouped (s : Sketch) : Prop := s.Everywhere (fun s _ => s.Grouped) []

theorem grouped_of_not_isOperation {kind : Kind} (h : kind.isOperation = false) (late : Bool)
    (slots : List Sketch) : (node kind late slots).Grouped := by
  cases kind <;> trivial

theorem AllGrouped.node {kind : Kind} {late : Bool} {slots : List Sketch}
    (h : (node kind late slots).Grouped) (hslots : ∀ s ∈ slots, s.AllGrouped) :
    (Sketch.node kind late slots).AllGrouped :=
  ⟨h, everywhereIn_of_forall hslots⟩

theorem allGrouped_token (t : Token) : (token t).AllGrouped := trivial

end Sketch

mutual
/-- Whether no node of a phrase is an operator with its operands, or a call. -/
def Phrase.isSimple : Phrase → Bool
  | .missing kind => !kind.isOperation
  | .either _ there other => there.isSimple && other.isSimple
  | .seq parts => Phrase.areSimple parts
  | .node kind parts => !kind.isOperation && Phrase.areSimple parts
  | _ => true
/-- Whether no node of several phrases is an operator with its operands, or a call. -/
def Phrase.areSimple : List Phrase → Bool
  | [] => true
  | x :: rest => x.isSimple && Phrase.areSimple rest
end

namespace Reader

/-- Whether no operator can follow that binds tighter than a power. -/
def Settled (p : Reader) (power : Nat) : Prop :=
  p.nesting.exhausted = true ∨
    ∀ next, Grammar.bindingPower? p.next = some next → next ≤ power

end Reader

namespace Goal

/-- What was read before is grouped and fits what is read next. -/
def GroupsSoFar (p : Reader) : Goal → Prop
  | phrase x => x.isSimple = true
  | links m lhs _ => lhs.AllGrouped ∧ ∀ power ∈ lhs.power?, m < power ∧ p.Settled power
  | calls callee _ =>
    callee.AllGrouped ∧ callee.power? = none ∧ (callee.isCallable = true ∨ p.next ≠ .lParen)

/-- Expressions are joined by operators that bind tighter than a power, and as many as there are;
operands are not joined at all. -/
def Delivers (slots : List Sketch) (q : Reader) : Goal → Prop
  | phrase (.operators m) | links m _ _ =>
    (∀ s ∈ slots, ∀ power ∈ s.power?, m < power) ∧ q.Settled m
  | phrase .prefixed | calls _ _ => ∀ s ∈ slots, s.power? = none
  | phrase _ => True

end Goal

namespace Reads

open Grammar

variable {goal : Goal} {p q : Reader} {slots : List Sketch}

/-- After something that cannot be called, no call follows. -/
theorem isCallable_of_primary {callee : Sketch} (h : Reads Phrase.primary p [callee] q) :
    callee.power? = none ∧ (callee.isCallable = true ∨ q.next ≠ .lParen) := by
  cases h with
  | there _ h => cases h; exact ⟨rfl, .inl rfl⟩
  | other _ h =>
    cases h with
    | there _ h => cases h; exact ⟨rfl, .inl rfl⟩
    | other _ h =>
      cases h with
      | there _ h => cases h; exact ⟨rfl, .inl rfl⟩
      | other hparen h =>
        cases h
        refine ⟨rfl, .inr fun hnext => ?_⟩
        rw [hnext] at hparen
        cases hparen

/-- Everything that is derived is grouped. -/
theorem allGrouped (h : Reads goal p slots q) (hready : goal.GroupsSoFar p) :
    (∀ s ∈ slots, s.AllGrouped) ∧ goal.Delivers slots q := by
  induction h with
  | token | absent => exact ⟨fun s hs => List.mem_singleton.mp hs ▸ trivial, trivial⟩
  | missing =>
    have hkind := (Bool.not_eq_true' _).mp hready
    exact ⟨fun s hs => List.mem_singleton.mp hs ▸ hkind, trivial⟩
  | nil | calm | argsDone | paramsDone | stmtsDone | itemsDone =>
    exact ⟨fun s hs => absurd hs List.not_mem_nil, trivial⟩
  | there _ _ ih => exact ⟨(ih (Bool.and_eq_true_iff.mp hready).1).1, trivial⟩
  | other _ _ ih => exact ⟨(ih (Bool.and_eq_true_iff.mp hready).2).1, trivial⟩
  | rescue _ _ ih => exact ⟨(ih rfl).1, trivial⟩
  | cons _ _ ihx ihxs =>
    obtain ⟨hx, hxs⟩ := Bool.and_eq_true_iff.mp hready
    exact ⟨List.forall_mem_append.mpr ⟨(ihx hx).1, (ihxs hxs).1⟩, trivial⟩
  | node _ ih =>
    obtain ⟨hkind, hparts⟩ := Bool.and_eq_true_iff.mp hready
    have hgrouped := Sketch.grouped_of_not_isOperation (Bool.not_eq_true' _ ▸ hkind)
    exact ⟨List.forall_mem_singleton.mpr (.node (hgrouped ..) (ih hparts).1), trivial⟩
  | stray =>
    refine ⟨List.forall_mem_singleton.mpr (.node trivial fun s hs => ?_), trivial⟩
    obtain ⟨t, -, rfl⟩ := List.mem_map.mp hs
    exact Sketch.allGrouped_token t
  | operators _ _ ihfirst ihlinks =>
    obtain ⟨hgrouped, hpower⟩ := ihfirst rfl
    refine ihlinks ⟨hgrouped _ List.mem_cons_self, fun power hmem => ?_⟩
    rw [hpower _ List.mem_cons_self] at hmem
    cases hmem
  | linksDone hnext =>
    exact ⟨List.forall_mem_singleton.mpr hready.1,
      List.forall_mem_singleton.mpr fun power hpower => (hready.2 power hpower).1, .inr hnext⟩
  | linkRefused _ _ henter =>
    exact ⟨List.forall_mem_singleton.mpr hready.1,
      List.forall_mem_singleton.mpr fun power hpower => (hready.2 power hpower).1,
      .inl (Nesting.exhausted_of_refused henter)⟩
  | @link m k power lhs rhs t rest n q r slots hpower hm henter _ _ ihrhs ihlinks =>
    obtain ⟨hrhs, htighter, hsettled⟩ := ihrhs rfl
    have hlhs (inner : Nat) (hinner : inner ∈ lhs.power?) : power ≤ inner :=
      (hready.2 inner hinner).2.elim
        (fun hexhausted => absurd hexhausted (by simp [(Nesting.enter_eq_true_iff.mp henter).1]))
        fun hnext => hnext power hpower
    have hjoined : (Sketch.node .binaryExpr true [lhs, .token t, rhs]).power? = some power := by
      simp [Sketch.power?, Sketch.operatorPower, hpower]
    refine ihlinks ⟨.node
      ⟨lhs, t, rhs, power, rfl, hpower, hlhs, htighter rhs List.mem_cons_self⟩ ?_,
      fun inner hinner => ?_⟩
    · simpa using ⟨hready.1, Sketch.allGrouped_token t, hrhs rhs List.mem_cons_self⟩
    · obtain rfl := Option.some.inj (hjoined.symm.trans hinner)
      exact ⟨hm, hsettled⟩
  | tooDeep =>
    exact ⟨fun s hs => List.mem_singleton.mp hs ▸ rfl, List.forall_mem_singleton.mpr rfl⟩
  | negated _ _ _ ih =>
    obtain ⟨hoperand, hpower⟩ := ih rfl
    refine ⟨List.forall_mem_singleton.mpr (.node ⟨_, _, rfl, hpower _ List.mem_cons_self⟩ ?_),
      List.forall_mem_singleton.mpr rfl⟩
    simpa using ⟨Sketch.allGrouped_token _, hoperand _ List.mem_cons_self⟩
  | operand _ _ hcallee _ ihcallee ihcalls =>
    exact ihcalls ⟨(ihcallee rfl).1 _ List.mem_cons_self, hcallee.isCallable_of_primary⟩
  | callsDone | callRefused =>
    exact ⟨List.forall_mem_singleton.mpr hready.1, List.forall_mem_singleton.mpr hready.2.1⟩
  | call hparen _ _ _ ihclause ihcalls =>
    have hcallable := hready.2.2.resolve_right fun hnext => hnext hparen
    refine ihcalls ⟨.node ⟨_, _, rfl, hcallable⟩ ?_, rfl, .inl rfl⟩
    simpa using ⟨hready.1, (ihclause rfl).1 _ List.mem_cons_self⟩
  | argMore _ _ _ _ iharg ihmore =>
    refine ⟨List.forall_mem_cons.mpr ⟨.node trivial ?_, (ihmore rfl).1⟩, trivial⟩
    exact List.forall_mem_append.mpr ⟨(iharg rfl).1, List.forall_mem_singleton.mpr trivial⟩
  | paramMore _ _ _ ihparam ihmore =>
    refine ⟨List.forall_mem_cons.mpr ⟨.node trivial ?_, (ihmore rfl).1⟩, trivial⟩
    exact List.forall_mem_append.mpr
      ⟨(ihparam rfl).1, List.forall_mem_singleton.mpr trivial⟩
  | argLast _ _ _ ih =>
    refine ⟨List.forall_mem_singleton.mpr (.node trivial ?_), trivial⟩
    exact List.forall_mem_append.mpr ⟨(ih rfl).1, List.forall_mem_singleton.mpr trivial⟩
  | paramLast _ _ ih =>
    refine ⟨List.forall_mem_singleton.mpr (.node trivial ?_), trivial⟩
    exact List.forall_mem_append.mpr ⟨(ih rfl).1, List.forall_mem_singleton.mpr trivial⟩
  | stmtsMore _ _ _ ihstmt ihmore | itemsMore _ _ _ ihstmt ihmore =>
    exact ⟨List.forall_mem_append.mpr ⟨(ihstmt rfl).1, (ihmore rfl).1⟩, trivial⟩

/-- The sketch of a file is grouped. -/
theorem allGrouped_file {items : List Sketch} (h : Reads Phrase.items p items q) (eof : Token) :
    (Sketch.file items eof).AllGrouped := by
  refine .node trivial (List.forall_mem_cons.mpr ⟨.node trivial (h.allGrouped rfl).1, ?_⟩)
  exact List.forall_mem_singleton.mpr (Sketch.allGrouped_token eof)

end Reads

namespace View

open Grammar

/-- Operators group as usual at a view: an operator stands between two operands, of which the right
one is joined by tighter operators only and the left one by none that is looser; a sign stands
before an operand that is not joined; and something that can be called stands before its
arguments. -/
structure Grouped (v : View) : Prop where
  binary : v.kind = .binaryExpr → ∃ lhs op rhs,
    v.slot? 0 = some lhs ∧ v.slot? 1 = some op ∧ v.slot? 2 = some rhs ∧
    (op.kind.isSum || op.kind.isProduct) = true ∧
    (lhs.kind = .binaryExpr →
      ∃ inner, lhs.slot? 1 = some inner ∧ op.kind.bindsTighter inner.kind = false) ∧
    (rhs.kind = .binaryExpr →
      ∃ inner, rhs.slot? 1 = some inner ∧ inner.kind.bindsTighter op.kind = true)
  sign : v.kind = .prefixExpr → ∃ op operand,
    v.slot? 0 = some op ∧ v.slot? 1 = some operand ∧ op.kind = .minus ∧ operand.kind ≠ .binaryExpr
  call : v.kind = .callExpr → ∃ callee clause,
    v.slot? 0 = some callee ∧ v.slot? 1 = some clause ∧ callee.isMissing = false ∧
    callee.kind.isCallable = true ∧ clause.kind = .argClause

namespace Shows

variable {whole s : Sketch} {v : View} {before : List Token}

theorem grouped (h : Shows whole v s before) (hwhole : whole.AllGrouped) : s.Grouped := by
  obtain ⟨after, -, hs⟩ := h.everywhere hwhole
  exact hs.here

/-- Operators and calls were read. -/
theorem eq_node_of_isOperation (h : Shows whole v s before) (hwhole : whole.AllGrouped)
    {kind : Kind} (hkind : v.kind = kind) (hoperation : kind.isOperation = true) :
    ∃ late slots, s = .node kind late slots := by
  have hgrouped := h.grouped hwhole
  have heq := h.kind_eq
  rw [hkind] at heq
  cases s with
  | token t =>
    have htoken : t.kind.isToken = true := h.conforms
    rw [Option.some.inj heq, Kind.isToken_eq_false_of_isOperation hoperation] at htoken
    cases htoken
  | missing other =>
    have hplain : other.isOperation = false := hgrouped
    rw [Option.some.inj heq, hoperation] at hplain
    cases hplain
  | absent => cases heq
  | node other late slots => exact ⟨late, slots, by rw [← Option.some.inj heq]⟩

/-- An operator binds with the power that the sketch shows. -/
theorem exists_operator (h : Shows whole v s before) (hwhole : whole.AllGrouped)
    (hkind : v.kind = .binaryExpr) :
    ∃ op power, v.slot? 1 = some op ∧ bindingPower? op.kind = some power ∧ power ∈ s.power? := by
  obtain ⟨late, slots, rfl⟩ := h.eq_node_of_isOperation hwhole hkind rfl
  obtain ⟨lhs, t, rhs, power, rfl, hpower, -⟩ := h.grouped hwhole
  obtain ⟨_, op, _, ht, hop, hshows, -⟩ := h.exists_required 1 rfl rfl
  cases ht
  rw [Option.some.inj hshows.kind_eq] at hpower
  refine ⟨op, power, hop, hpower, ?_⟩
  simp [Sketch.power?, Sketch.operatorPower, Option.some.inj hshows.kind_eq, hpower]

/-- An operator stands between two operands that are joined as it allows. -/
theorem binary (h : Shows whole v s before) (hwhole : whole.AllGrouped)
    (hkind : v.kind = .binaryExpr) : ∃ lhs op rhs,
      v.slot? 0 = some lhs ∧ v.slot? 1 = some op ∧ v.slot? 2 = some rhs ∧
      (op.kind.isSum || op.kind.isProduct) = true ∧
      (lhs.kind = .binaryExpr →
        ∃ inner, lhs.slot? 1 = some inner ∧ op.kind.bindsTighter inner.kind = false) ∧
      (rhs.kind = .binaryExpr →
        ∃ inner, rhs.slot? 1 = some inner ∧ inner.kind.bindsTighter op.kind = true) := by
  obtain ⟨late, slots, rfl⟩ := h.eq_node_of_isOperation hwhole hkind rfl
  obtain ⟨_, _, _, power, rfl, hpower, hleft, hright⟩ := h.grouped hwhole
  obtain ⟨_, lhs, _, hl, hlhs, hshowsl, -⟩ := h.exists_required 0 rfl rfl
  obtain ⟨_, op, _, ht, hop, hshows, -⟩ := h.exists_required 1 rfl rfl
  obtain ⟨_, rhs, _, hr, hrhs, hshowsr, -⟩ := h.exists_required 2 rfl rfl
  cases hl
  cases ht
  cases hr
  rw [Option.some.inj hshows.kind_eq] at hpower
  refine ⟨lhs, op, rhs, hlhs, hop, hrhs, ?_, fun hbinary => ?_, fun hbinary => ?_⟩
  · rcases power_cases hpower with ⟨hsum, -, -⟩ | ⟨hproduct, -, -⟩ <;> simp [*]
  · obtain ⟨inner, power', hinner, hpower', hmem⟩ := hshowsl.exists_operator hwhole hbinary
    refine ⟨inner, hinner, Bool.eq_false_iff.mpr fun htighter => ?_⟩
    have hlt := (bindsTighter_iff_lt hpower hpower').mp htighter
    exact Nat.not_lt.mpr (hleft power' hmem) hlt
  · obtain ⟨inner, power', hinner, hpower', hmem⟩ := hshowsr.exists_operator hwhole hbinary
    exact ⟨inner, hinner, (bindsTighter_iff_lt hpower' hpower).mpr (hright power' hmem)⟩

/-- A sign stands before an operand that is not joined. -/
theorem sign (h : Shows whole v s before) (hwhole : whole.AllGrouped)
    (hkind : v.kind = .prefixExpr) : ∃ op operand,
      v.slot? 0 = some op ∧ v.slot? 1 = some operand ∧ op.kind = .minus ∧
      operand.kind ≠ .binaryExpr := by
  obtain ⟨late, slots, rfl⟩ := h.eq_node_of_isOperation hwhole hkind rfl
  obtain ⟨_, _, rfl, hpower⟩ := h.grouped hwhole
  obtain ⟨_, op, _, -, hop, -, hminus⟩ := h.exists_required 0 rfl rfl
  obtain ⟨_, operand, _, hr, hoperand, hshows, -⟩ := h.exists_required 1 rfl rfl
  cases hr
  refine ⟨op, operand, hop, hoperand, ?_, fun hbinary => ?_⟩
  · simpa [SlotSpec.required, KindSet.contains_ofList] using hminus
  · obtain ⟨-, power, -, -, hmem⟩ := hshows.exists_operator hwhole hbinary
    rw [hpower] at hmem
    cases hmem

/-- What stands before arguments can be called. -/
theorem call (h : Shows whole v s before) (hwhole : whole.AllGrouped)
    (hkind : v.kind = .callExpr) : ∃ callee clause,
      v.slot? 0 = some callee ∧ v.slot? 1 = some clause ∧ callee.isMissing = false ∧
      callee.kind.isCallable = true ∧ clause.kind = .argClause := by
  obtain ⟨late, slots, rfl⟩ := h.eq_node_of_isOperation hwhole hkind rfl
  obtain ⟨s, _, rfl, hcallable⟩ := h.grouped hwhole
  obtain ⟨_, callee, _, hl, hcallee, hshows, -⟩ := h.exists_required 0 rfl rfl
  obtain ⟨_, clause, _, -, hclause, -, hargs⟩ := h.exists_required 1 rfl rfl
  cases hl
  cases s with
  | token t | missing kind | absent => cases hcallable
  | node kind late slots =>
    obtain ⟨id, built, hg, -⟩ := hshows.built
    have hg := Option.some.inj hg
    refine ⟨callee, clause, hcallee, hclause, by rw [isMissing, hg]; rfl,
      by rw [View.kind, hg]; exact hcallable, ?_⟩
    simpa [SlotSpec.required, KindSet.contains_ofList] using hargs

end Shows

end View

/-- Operators group as usual in the tree of every text, whether it is well formed or not and
whether or not the nesting limit was met. -/
theorem parse_operators_grouped {st : Store} (hst : st.Coherent) (text : String) :
    (text.utf8ByteSize < 1 <<< 28 → ∃ v st', parse text st = (.ok v, st')) ∧
      ∀ v st', parse text st = (.ok v, st') → ∀ d ∈ v.nodes, d.Grouped := by
  refine ⟨exists_parse_eq_ok hst, fun v st' hparse d hd => ?_⟩
  obtain ⟨-, g, items, y, rfl, -, hg⟩ := exists_of_parse_eq_ok hst hparse
  rw [View.nodes, List.mem_filter, View.descendants_eq] at hd
  obtain ⟨s, before, hs⟩ := View.exists_shows_of_mem_entriesAt (hg.shows st.tag) d hd.1
  have hwhole := hg.reads.allGrouped_file (tokenize text).eof
  exact ⟨hs.binary hwhole, hs.sign hwhole, hs.call hwhole⟩

/-- A sum of differences and products in which an operand is missing, in a store that has made
nothing. -/
theorem parse_operators_grouped_mixed :
    ({ tag := 0 } : Store).Coherent ∧
      ∃ v st', parse "let x = 1 - 2 - -f(3) * + 4" { tag := 0 } = (.ok v, st') ∧
        ∀ d ∈ v.nodes, d.Grouped := by
  have hst : ({ tag := 0 } : Store).Coherent := Store.coherent_empty 0 {}
  obtain ⟨hparse, hgrouped⟩ := parse_operators_grouped hst "let x = 1 - 2 - -f(3) * + 4"
  obtain ⟨v, st', hv⟩ := hparse (by decide)
  exact ⟨hst, v, st', hv, hgrouped v st' hv⟩

end Verbatim
