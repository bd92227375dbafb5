import Verbatim.Proofs.Acceptance.Soundness

/-!
# Words are read without errors

A phrase is ready for some kinds if reading them causes no error. For a phrase without loops this is
computed from the back, with a condition on the kinds that are left; for an expression or a list it
is said through the words, in the form in which each is as long as it can be. If no level is
refused, a derivation that starts with kinds its goal is ready for has no error.
-/

namespace Verbatim

/-- No operator that binds tighter than a power comes first. -/
def Below (power : Nat) (w : List Kind) : Prop :=
  ∀ found, Grammar.bindingPower? (Kind.first w) = some found → found ≤ power

/-- What a row of operators needs from the condition on what is left. -/
def Leaves (power : Nat) (r : List Kind) (after : List Kind → Prop) : Prop :=
  ∀ t, Row .tail t → Below power t → after (t ++ r)

namespace Phrase

mutual
/-- The kinds that a phrase reads without errors such that a condition holds of what is left. A
token that is not there stops the reading, which is no error. -/
def Ready : Phrase → (List Kind → Prop) → List Kind → Prop
  | token kind, after, u => ∀ r, u = kind :: r → after r
  | missing _, _, _ | stray _, _, _ => False
  | absent, after, u | recovery _, after, u => after u
  | either first there other, after, u =>
    if first.contains (Kind.first u) then there.Ready after u else other.Ready after u
  | seq parts, after, u => ReadyAll parts after u
  | node kind parts, after, u => kind ≠ .unexpected ∧ ReadyAll parts after u
  | operators power, after, u =>
    ∃ c t r, u = c ++ (t ++ r) ∧ Row .operand c ∧ Row .tail t ∧ Stops r ∧ Leaves power r after
  | prefixed, after, u =>
    ∃ c r, u = c ++ r ∧ Row .operand c ∧ Kind.first r ≠ .lParen ∧ after r
  | args, after, u => ∃ a r, u = a ++ r ∧ Row .args a ∧ Kind.first r = .rParen ∧ after r
  | params, after, u => ∃ a r, u = a ++ r ∧ Word .params a ∧ Kind.first r = .rParen ∧ after r
  | stmts, after, u => ∃ a r, u = a ++ r ∧ Greedy a ∧ Kind.first r = .rBrace ∧ after r
  | items, after, u => Word .items u ∧ after []
/-- As `Ready`, for phrases one after the other. -/
def ReadyAll : List Phrase → (List Kind → Prop) → List Kind → Prop
  | [], after, u => after u
  | x :: rest, after, u => x.Ready (ReadyAll rest after) u
end

variable {after : List Kind → Prop} {r : List Kind}

/-- A choice is ready if its first phrase starts here and is ready. -/
theorem ready_there {first : KindSet} {x y : Phrase} {u : List Kind}
    (hfirst : first.contains (Kind.first u) = true) (h : x.Ready after u) :
    (either first x y).Ready after u := by
  rw [Ready, if_pos hfirst]
  exact h

/-- The first alternative of a choice by one kind is taken in front of that kind. -/
theorem ready_at {kind : Kind} {x y : Phrase} (h : x.Ready after (kind :: r)) :
    (either (.single kind) x y).Ready after (kind :: r) :=
  ready_there (by simp [Kind.first]) h

/-- The second alternative of a choice by one kind is taken in front of other kinds. -/
theorem ready_past {kind : Kind} {x y : Phrase} {u : List Kind} (hfirst : Kind.first u ≠ kind)
    (h : y.Ready after u) : (either (.single kind) x y).Ready after u := by
  rw [Ready, if_neg (by simpa using hfirst)]
  exact h

/-- The second alternative of a choice by one kind is taken if another kind is at hand. -/
theorem ready_next {kind head : Kind} {x y : Phrase} (hne : head ≠ kind)
    (h : y.Ready after (head :: r)) : (either (.single kind) x y).Ready after (head :: r) :=
  ready_past hne h

/-- A choice is ready if its first phrase does not start here and its second is ready. -/
theorem ready_other {first : KindSet} {x y : Phrase} {u : List Kind}
    (hfirst : first.contains (Kind.first u) = false) (h : y.Ready after u) :
    (either first x y).Ready after u := by
  rw [Ready, if_neg (by simp [hfirst])]
  exact h

/-- A token is ready where it comes next. -/
theorem ready_token {kind : Kind} (h : after r) : (token kind).Ready after (kind :: r) := by
  intro r' hr
  cases hr
  exact h

theorem ready_required {kind : Kind} (h : after r) : (required kind).Ready after (kind :: r) :=
  ready_at (ready_token h)

/-- The optional type after a mark. -/
theorem ready_typeAfter {mark kind : Kind} (hkind : kind ≠ .unexpected) {t : List Kind}
    (ht : Word (.typeAfter mark) t) (hr : Kind.first r ≠ mark) (h : after r) :
    (either (.single mark) (typeAfter mark kind) absent).Ready after (t ++ r) := by
  cases ht with
  | noType => exact ready_past hr h
  | someType => exact ready_at ⟨hkind, ready_token (ready_at ⟨by decide, ready_token h⟩)⟩

/-- Below the weakest operator a row has ended. -/
theorem eq_nil_of_below_zero {t : List Kind} (ht : Row .tail t) (h : Below 0 t) : t = [] := by
  cases ht with
  | noTail => rfl
  | link hop hc ht =>
    simp only [List.mem_cons, List.not_mem_nil, or_false] at hop
    rcases hop with rfl | rfl | rfl | rfl <;> exact absurd (h _ rfl) (by decide)

/-- An expression is ready before whatever cannot go on with it. -/
theorem ready_expr {e : List Kind} (he : Row.Expr e) (hr : Stops r) (h : after r) :
    expr.Ready after (e ++ r) := by
  obtain ⟨c, t, rfl, hc, ht⟩ := he
  refine ⟨c, t, r, List.append_assoc c t r, hc, ht, hr, fun t' ht' hbelow => ?_⟩
  rw [eq_nil_of_below_zero ht' hbelow]
  exact h

/-- An operand is ready where it is spelled. -/
theorem ready_primary {c : List Kind} (hc : Row .primary c) (h : after r) :
    primary.Ready after (c ++ r) := by
  cases hc with
  | number => exact ready_at ⟨by decide, ready_token h⟩
  | name => exact ready_next (by decide) (ready_at ⟨by decide, ready_token h⟩)
  | @paren c t hc ht =>
    have hexpr : expr.Ready (ReadyAll [required .rParen] after) (c ++ t ++ .rParen :: r) :=
      ready_expr ⟨c, t, rfl, hc, ht⟩ (by simp [Stops, Kind.first, Kind.continuing])
        (ready_required h)
    rw [List.cons_append, List.append_assoc (c ++ t), List.singleton_append]
    exact ready_next (by decide) (ready_next (by decide) (ready_at ⟨by decide, ready_token hexpr⟩))

/-- Arguments are ready where they are spelled between parentheses. -/
theorem ready_argClause {a : List Kind} (ha : Row .args a) (h : after r) :
    argClause.Ready after (.lParen :: (a ++ .rParen :: r)) :=
  ⟨by decide, ready_token ⟨by decide, a, .rParen :: r, rfl, ha, rfl, ready_required h⟩⟩

/-- A declaration without a value is ready. -/
theorem ready_letType {t : List Kind} (ht : Word (.typeAfter .colon) t)
    (hcolon : Kind.first r ≠ .colon) (heq : Kind.first r ≠ .eq) (h : after r) :
    letDecl.Ready after (.letKw :: .ident :: (t ++ r)) :=
  ⟨by decide, ready_token (ready_required
    (ready_typeAfter (by decide) ht hcolon (ready_past heq h)))⟩

/-- A declaration with a value is ready. -/
theorem ready_letValue {t e : List Kind} (ht : Word (.typeAfter .colon) t) (he : Row.Expr e)
    (hr : Stops r) (h : after r) :
    letDecl.Ready after (.letKw :: .ident :: (t ++ .eq :: (e ++ r))) :=
  ⟨by decide, ready_token (ready_required (ready_typeAfter (by decide) ht (by simp [Kind.first])
    (ready_at ⟨by decide, ready_token (ready_expr he hr h)⟩)))⟩

/-- A statement in a row of statements that are as long as they can be. -/
theorem ready_stmt {w : List Kind} (hw : Greedy w) (hne : w ≠ []) (hr : Kind.first r = .rBrace)
    (h : ∀ w', Greedy w' → after (w' ++ r)) : stmt.Ready after (w ++ r) := by
  have hstops {w' : List Kind} (hw' : Stops w') : Stops (w' ++ r) := by
    cases w' with
    | nil => simp [Stops, hr, Kind.continuing]
    | cons k w' => exact hw'
  have hfirst {w' : List Kind} (hw' : Greedy w') {kind : Kind}
      (hkind : kind ∉ Kind.rBrace :: Kind.stmtFirst) : Kind.first (w' ++ r) ≠ kind := by
    rintro rfl
    by_cases hnil : w' = []
    · rw [hnil, List.nil_append, hr] at hkind
      exact hkind List.mem_cons_self
    · rw [Kind.first_append hnil] at hkind
      exact hkind (List.mem_cons_of_mem _ (hw'.first_mem hnil))
  cases hw with
  | nil => exact absurd rfl hne
  | letType ht hw =>
    simp only [List.cons_append, List.append_assoc]
    exact ready_at (ready_letType ht (hfirst hw (by decide)) (hfirst hw (by decide)) (h _ hw))
  | letValue ht he hs hw =>
    simp only [List.cons_append, List.append_assoc]
    exact ready_at (ready_letValue ht he (hstops hs) (h _ hw))
  | @bareReturn w hexpr hw =>
    rw [List.cons_append]
    refine ready_next (by decide) (ready_at ⟨by decide, ready_token (ready_other ?_ (h _ hw))⟩)
    by_cases hnil : w = []
    · rw [hnil, List.nil_append, hr]
      rfl
    · rw [Kind.first_append hnil]
      exact hexpr
  | valueReturn he hs hw =>
    rw [List.cons_append, List.append_assoc]
    refine ready_next (by decide) (ready_at ⟨by decide, ready_token (ready_there ?_ ?_)⟩)
    · rw [Kind.first_append he.ne_nil]
      exact he.first_mem
    · exact ready_expr he (hstops hs) (h _ hw)
  | exprStmt he hs hw =>
    rw [List.append_assoc]
    have hfirst := he.first_mem
    refine ready_past ?_ (ready_past ?_ (ready_there ?_
      ⟨by decide, ready_expr he (hstops hs) (h _ hw)⟩)) <;> rw [Kind.first_append he.ne_nil]
    · intro hlet
      rw [hlet] at hfirst
      cases hfirst
    · intro hreturn
      rw [hreturn] at hfirst
      cases hfirst
    · exact hfirst

/-- A block whose statements are as long as they can be. -/
theorem ready_codeBlock {b : List Kind} (hb : Word .block b) (h : after r) :
    codeBlock.Ready after (b ++ r) := by
  cases hb with
  | @block w hw =>
    rw [List.cons_append, List.append_assoc, List.singleton_append]
    exact ⟨by decide, ready_token
      ⟨by decide, w, .rBrace :: r, rfl, Greedy.shape_of_word hw, rfl, ready_required h⟩⟩

/-- A function is ready where it is spelled. -/
theorem ready_funcDecl {f : List Kind} (hf : Word .func f) (h : after r) :
    funcDecl.Ready after (f ++ r) := by
  cases hf with
  | @func ps t b hps ht hb =>
    have hblock :
        (either (.single .lBrace) codeBlock (missing .codeBlock)).Ready after (b ++ r) := by
      have hready := ready_codeBlock hb h
      cases hb
      exact ready_at hready
    have htype := @ready_typeAfter _ _ .arrow .returnClause (by decide) _ ht
      (by cases hb; simp [Kind.first]) hblock
    simp only [List.cons_append, List.append_assoc]
    refine ⟨by decide, ready_token (ready_required (ready_there ?_
      (ready_at ⟨by decide, ready_token ⟨by decide, ps, _, rfl, hps, rfl, ?_⟩⟩)))⟩
    · simp [Kind.first, Grammar.paramsStop]
    · exact ready_there (by simp [Kind.first, Grammar.rParenStop]) (ready_required htype)

/-- A parameter up to its comma. -/
theorem ready_param {parts : List Phrase} (h : ReadyAll parts after r) :
    (seq (.token .ident :: required .colon :: typeName :: parts)).Ready after
      ([.ident, .colon, .ident] ++ r) :=
  ready_token (ready_required (ready_at ⟨by decide, ready_token h⟩))

/-- An item in front of other items. -/
theorem ready_item {u : List Kind} (hu : Word .items u) (hne : Kind.first u ≠ .eof)
    (h : ∀ w, Word .items w → after w) : item.Ready after u := by
  cases hu with
  | noItems => exact absurd rfl hne
  | funcItem hf hw =>
    have hready := ready_funcDecl hf (h _ hw)
    cases hf
    exact ready_at hready
  | @letItem l w hl hw =>
    have hfirst : Kind.first w ∈ [Kind.eof, .funcKw, .letKw] := by
      rcases hw.first_of_items with rfl | hw | hw <;> simp_all [Kind.first]
    have hother {kind : Kind} (hkind : kind ∉ [Kind.eof, .funcKw, .letKw]) :
        Kind.first w ≠ kind := fun heq => hkind (heq ▸ hfirst)
    have hstops : Stops w := fun hmem => by
      revert hfirst hmem
      generalize Kind.first w = kind
      revert kind
      decide
    cases hl with
    | @letDecl t v ht hv =>
      rw [List.cons_append, List.cons_append, List.append_assoc]
      refine ready_next (by decide) (ready_at ?_)
      cases hv with
      | noValue => exact ready_letType ht (hother (by decide)) (hother (by decide)) (h w hw)
      | someValue he => exact ready_letValue ht (Row.shape_of_word he) hstops (h w hw)

end Phrase

/-- A parenthesis or a comma ends an expression. -/
theorem stops_of_first {r : List Kind} {kind : Kind} (hr : Kind.first r = kind)
    (hkind : kind ∉ Kind.continuing) : Stops r := by
  rw [Stops, hr]
  exact hkind

/-- As `Phrase.Ready`, also for what follows an operand or a callee. -/
def Goal.Ready : Goal → (List Kind → Prop) → List Kind → Prop
  | phrase x, after, u => x.Ready after u
  | links power _ _, after, u =>
    ∃ t r, u = t ++ r ∧ Row .tail t ∧ Stops r ∧ Leaves power r after
  | calls _ _, after, u => ∃ d r, u = d ++ r ∧ Row .calls d ∧ Kind.first r ≠ .lParen ∧ after r

namespace Goal

variable {after : List Kind → Prop} {u : List Kind} {m k power : Nat} {kind : Kind}

/-- No call follows a row of operators. -/
theorem ne_lParen_of_tail {t r : List Kind} (ht : Row .tail t) (hr : Stops r) :
    Kind.first (t ++ r) ≠ .lParen := by
  cases ht with
  | noTail =>
    intro hfirst
    rw [List.nil_append] at hfirst
    exact hr (hfirst ▸ by decide)
  | link hop _ _ =>
    rintro rfl
    exact absurd hop (by decide)

/-- An operator expression starts with an operand. -/
theorem ready_prefixed (h : (Phrase.operators m).Ready after u) (first : Sketch) :
    Phrase.prefixed.Ready ((links m first k).Ready after) u := by
  obtain ⟨c, t, r, hu, hc, ht, hr, hleaves⟩ := h
  exact ⟨c, t ++ r, hu, hc, ne_lParen_of_tail ht hr, t, r, rfl, ht, hr, hleaves⟩

/-- Where no operator binds tighter, the row of operators has ended. -/
theorem after_of_links {lhs : Sketch} (h : (links m lhs k).Ready after u)
    (hpower : ∀ power, Grammar.bindingPower? (Kind.first u) = some power → power ≤ m) :
    after u := by
  obtain ⟨t, r, rfl, ht, -, hleaves⟩ := h
  have hbelow : Below m t := by
    cases ht with
    | noTail => simp [Below, Kind.first, Grammar.bindingPower?]
    | link hop hc ht => exact hpower
  exact hleaves t ht hbelow

/-- An operand follows an operator, and then the rest of the row. -/
theorem ready_operators {lhs next : Sketch} {k' : Nat}
    (h : (links m lhs k).Ready after (kind :: u))
    (hpower : Grammar.bindingPower? kind = some power) :
    (Phrase.operators power).Ready ((links m next k').Ready after) u := by
  obtain ⟨s, r, hu, hs, hstops, hleaves⟩ := h
  cases hs with
  | noTail =>
    rw [List.nil_append] at hu
    subst hu
    exact absurd (Grammar.mem_continuing_of_bindingPower hpower) hstops
  | @link c s op hop hc hs =>
    have hrest : u = c ++ (s ++ r) := by
      rw [← List.append_assoc]
      exact (List.cons.inj hu).2
    exact ⟨c, s, r, hrest, hc, hs, hstops, fun t ht _ => ⟨t, r, rfl, ht, hstops, hleaves⟩⟩

/-- An operand follows a sign. -/
theorem ready_negated (h : Phrase.prefixed.Ready after (.minus :: u)) :
    Phrase.prefixed.Ready after u := by
  obtain ⟨c, r, hu, hc, hr, hafter⟩ := h
  cases hc with
  | plain hprimary _ =>
    have hfirst := congrArg Kind.first hu
    cases hprimary <;> cases hfirst
  | @negated c hc => exact ⟨c, r, (List.cons.inj hu).2, hc, hr, hafter⟩

/-- An operand without a sign is a callee and its calls. -/
theorem ready_callee (h : Phrase.prefixed.Ready after u) (hminus : Kind.first u ≠ .minus)
    (callee : Sketch) : Phrase.primary.Ready ((calls callee k).Ready after) u := by
  obtain ⟨c, r, rfl, hc, hr, hafter⟩ := h
  cases hc with
  | negated _ => exact absurd rfl hminus
  | @plain c d hprimary hd =>
    rw [List.append_assoc]
    exact Phrase.ready_primary hprimary ⟨d, r, rfl, hd, hr, hafter⟩

/-- Without a parenthesis the calls have ended. -/
theorem after_of_calls {callee : Sketch} (h : (calls callee k).Ready after u)
    (hnext : Kind.first u ≠ .lParen) : after u := by
  obtain ⟨d, r, rfl, hd, -, hafter⟩ := h
  cases hd with
  | noCalls => exact hafter
  | call _ _ => exact absurd rfl hnext

/-- Arguments follow a callee, and then more calls. -/
theorem ready_argClause_of_calls {callee next : Sketch} {k' : Nat}
    (h : (calls callee k).Ready after u) (hnext : Kind.first u = .lParen) :
    Phrase.argClause.Ready ((calls next k').Ready after) u := by
  obtain ⟨d, r, rfl, hd, hr, hafter⟩ := h
  cases hd with
  | noCalls => exact absurd hnext hr
  | @call a d ha hd =>
    rw [List.cons_append, List.append_assoc, List.cons_append]
    exact Phrase.ready_argClause ha ⟨d, r, rfl, hd, hr, hafter⟩

end Goal

/-- A block does not end where a statement starts. -/
theorem Grammar.not_done_of_stmtFirst {kind : Kind} (h : kind ∈ Kind.stmtFirst) :
    (kind == .eof || blockEnd.contains kind) = false := by
  revert kind
  decide

namespace Phrase

variable {after : List Kind → Prop} {u : List Kind}

/-- A member of a list is the last one, or a comma and more members follow it. -/
def ReadyMember (member list : Phrase) (after : List Kind → Prop) (u : List Kind) : Prop :=
  member.Ready (fun r => Kind.first r = .rParen ∧ after r) u ∨
    member.Ready (fun r => ∃ more, r = .comma :: more ∧ list.Ready after more) u

/-- If no expression starts here, the arguments are over. -/
theorem after_of_args (h : args.Ready after u)
    (hfirst : Grammar.exprFirst.contains (Kind.first u) = false) : after u := by
  obtain ⟨a, r, rfl, ha, -, hafter⟩ := h
  cases ha with
  | noArgs => exact hafter
  | oneArg hc _ | moreArgs hc _ _ =>
    simp only [List.append_assoc] at hfirst
    rw [Kind.first_append hc.first_of_operand.2, hc.first_of_operand.1] at hfirst
    cases hfirst

/-- If an expression or a comma comes next, there is one more argument. -/
theorem ready_arg (h : args.Ready after u)
    (hat : (Kind.first u == .comma || Grammar.exprFirst.contains (Kind.first u)) = true) :
    ReadyMember expr args after u := by
  obtain ⟨a, r, rfl, ha, hr, hafter⟩ := h
  cases ha with
  | noArgs =>
    rw [List.nil_append, hr] at hat
    cases hat
  | @oneArg c t hc ht =>
    exact .inl (ready_expr ⟨c, t, rfl, hc, ht⟩ (stops_of_first hr (by decide)) ⟨hr, hafter⟩)
  | @moreArgs c t as hc ht has =>
    rw [List.append_assoc]
    exact .inr (ready_expr ⟨c, t, rfl, hc, ht⟩ (@stops_of_first _ .comma rfl (by decide))
      ⟨_, rfl, as, r, rfl, has, hr, hafter⟩)

/-- If no name comes next, the parameters are over. -/
theorem after_of_params (h : params.Ready after u) (hfirst : Kind.first u ≠ .ident) : after u := by
  obtain ⟨a, r, rfl, ha, -, hafter⟩ := h
  cases ha with
  | noParams => exact hafter
  | oneParam hparam | moreParams hparam _ =>
    cases hparam
    exact absurd rfl hfirst

/-- If a name comes next, there is one more parameter. -/
theorem ready_parameter (h : params.Ready after u) :
    ReadyMember (.seq [.token .ident, required .colon, typeName]) params after u := by
  obtain ⟨a, r, rfl, ha, hr, hafter⟩ := h
  cases ha with
  | noParams =>
    -- where no parameter starts, the name of one cannot be read
    refine .inl fun r' hr' => ?_
    rw [← List.nil_append r, hr'] at hr
    cases hr
  | oneParam hword =>
    cases hword
    exact .inl (ready_param ⟨hr, hafter⟩)
  | @moreParams _ ps hword hps =>
    cases hword
    exact .inr (ready_param ⟨_, rfl, ps, r, rfl, hps, hr, hafter⟩)

/-- If the block ends here, the statements are over. -/
theorem after_of_stmts (h : stmts.Ready after u)
    (hdone : (Kind.first u == .eof || Grammar.blockEnd.contains (Kind.first u)) = true) :
    after u := by
  obtain ⟨a, r, rfl, ha, -, hafter⟩ := h
  by_cases hne : a = []
  · rwa [hne]
  · have hfirst := ha.first_mem hne
    rw [Kind.first_append hne, Grammar.not_done_of_stmtFirst hfirst] at hdone
    cases hdone

/-- If the block does not end here, there is one more statement. -/
theorem ready_stmts (h : stmts.Ready after u)
    (hmore : (Kind.first u == .eof || Grammar.blockEnd.contains (Kind.first u)) = false) :
    (seq [stmt, .recovery Grammar.nestingStop]).Ready (stmts.Ready after) u := by
  obtain ⟨a, r, rfl, ha, hr, hafter⟩ := h
  have hne : a ≠ [] := by
    rintro rfl
    rw [List.nil_append, hr] at hmore
    cases hmore
  exact ready_stmt ha hne hr fun w' hw' => ⟨w', r, rfl, hw', hr, hafter⟩

/-- At the end of the text the items are over. -/
theorem after_of_items (h : items.Ready after u) (hdone : Kind.first u = .eof) : after u := by
  obtain ⟨hw, hafter⟩ := h
  rcases hw.first_of_items with hnil | hfirst | hfirst
  · rwa [hnil]
  · rw [hdone] at hfirst
    cases hfirst
  · rw [hdone] at hfirst
    cases hfirst

end Phrase

/-- Whether an argument starts here can be seen from the kinds to come. -/
theorem Reader.atArgument_eq {p : Reader} (hp : p.nesting.exhausted = false) :
    p.atArgument =
      (Kind.first p.kinds == .comma || Grammar.exprFirst.contains (Kind.first p.kinds)) := by
  rw [atArgument, hp, next_eq_first, Bool.not_false, Bool.and_true]

namespace Reads

variable {goal : Goal} {p q r : Reader} {slots more : List Sketch}

/-- Refusals are never taken back. -/
theorem refusals_le (h : Reads goal p slots q) : p.nesting.refusals ≤ q.nesting.refusals := by
  induction h with
  | token | missing | absent | nil | stray | calm | linksDone | callsDone | argsDone | paramsDone
  | stmtsDone | itemsDone => exact Nat.le_refl _
  | there _ _ ih | other _ _ ih | node _ ih | rescue _ _ ih | argLast _ _ _ ih
  | paramLast _ _ ih => exact ih
  | linkRefused _ _ henter | tooDeep henter | callRefused _ henter =>
    exact Nat.le_trans (Nat.le_succ _) (Nat.le_of_eq (Nesting.refusals_of_refused henter).symm)
  | negated henter _ _ ih =>
    exact Nat.le_trans (Nat.le_of_eq (Nesting.enter_of_granted henter).2.symm) ih
  | link _ _ henter _ _ ihx ihy | operand henter _ _ _ ihx ihy | call _ henter _ _ ihx ihy =>
    exact Nat.le_trans (Nat.le_of_eq (Nesting.enter_of_granted henter).2.symm)
      (Nat.le_trans ihx ihy)
  | cons _ _ ihx ihy | operators _ _ ihx ihy | argMore _ _ _ _ ihx ihy | paramMore _ _ _ ihx ihy
  | stmtsMore _ _ _ ihx ihy | itemsMore _ _ _ ihx ihy => exact Nat.le_trans ihx ihy

/-- Whatever the goal is ready for is read without errors, unless a level is refused on the way. -/
def Tidy (goal : Goal) (p : Reader) (slots : List Sketch) (q : Reader) : Prop :=
  ∀ ⦃after : List Kind → Prop⦄, goal.Ready after p.kinds → p.nesting.exhausted = false →
    q.nesting.refusals = p.nesting.refusals → Sketch.anyError goal.held = false →
    Sketch.anyError slots = false ∧ after q.kinds ∧ q.nesting.exhausted = false

namespace Tidy

variable {after : List Kind → Prop} {x : Phrase}

/-- A goal that is read after a phrase; it may hold what the phrase has filled. -/
theorem andThen (ihx : Tidy x p slots q) (ihy : Tidy goal q more r) (hx : Reads x p slots q)
    (hy : Reads goal q more r) (hready : x.Ready (goal.Ready after) p.kinds)
    (hp : p.nesting.exhausted = false) (hr : r.nesting.refusals = p.nesting.refusals)
    (hheld : Sketch.anyError slots = false → Sketch.anyError goal.held = false) :
    Sketch.anyError slots = false ∧
      Sketch.anyError more = false ∧ after r.kinds ∧ r.nesting.exhausted = false := by
  have hq : q.nesting.refusals = p.nesting.refusals :=
    Nat.le_antisymm (Nat.le_trans hy.refusals_le (Nat.le_of_eq hr)) hx.refusals_le
  obtain ⟨hclean, hready', hq'⟩ := ihx hready hp hq rfl
  exact ⟨hclean, ihy hready' hq' (hr.trans hq.symm) (hheld hclean)⟩

/-- Slots of two phrases that are read one after the other. -/
theorem append {y : Phrase} (ihx : Tidy x p slots q) (ihy : Tidy y q more r)
    (hx : Reads x p slots q) (hy : Reads y q more r) (hready : x.Ready (y.Ready after) p.kinds)
    (hp : p.nesting.exhausted = false) (hr : r.nesting.refusals = p.nesting.refusals) :
    Sketch.anyError (slots ++ more) = false ∧ after r.kinds ∧ r.nesting.exhausted = false := by
  obtain ⟨hclean, hclean', hend⟩ := ihx.andThen ihy hx hy hready hp hr fun _ => rfl
  refine ⟨?_, hend⟩
  rw [Sketch.anyError_append, hclean, hclean', Bool.or_false]

section Members

variable {list : Phrase} {kind : Kind} {t : Token} {rest : List Token} {n : Nesting}

/-- A member with a comma, and the members after it. -/
theorem memberMore (ihx : Tidy x p slots ⟨t :: rest, n⟩) (ihlist : Tidy list ⟨rest, n⟩ more q)
    (hx : Reads x p slots ⟨t :: rest, n⟩) (hlist : Reads list ⟨rest, n⟩ more q)
    (hcomma : t.kind = .comma) (hready : x.ReadyMember list after p.kinds)
    (hp : p.nesting.exhausted = false) (hq : q.nesting.refusals = p.nesting.refusals)
    (hkind : kind ≠ .unexpected) :
    Sketch.anyError (.node kind false (slots ++ [.token t]) :: more) = false ∧
      after q.kinds ∧ q.nesting.exhausted = false := by
  have hn : n.refusals = p.nesting.refusals :=
    Nat.le_antisymm (Nat.le_trans hlist.refusals_le (Nat.le_of_eq hq)) hx.refusals_le
  rcases hready with hlast | hmore
  · have hnext : t.kind = .rParen := (ihx hlast hp hn rfl).2.1.1
    rw [hcomma] at hnext
    cases hnext
  · obtain ⟨hclean, ⟨u, hu, hready'⟩, hn'⟩ := ihx hmore hp hn rfl
    rw [Reader.kinds_cons, List.cons.injEq] at hu
    rw [← hu.2] at hready'
    obtain ⟨hclean', hend⟩ := ihlist hready' hn' (hq.trans hn.symm) rfl
    refine ⟨?_, hend⟩
    simp [Sketch.anyError, Sketch.hasError, Sketch.anyError_append, hclean, hclean', hkind]

/-- A member without a comma. -/
theorem memberLast (ihx : Tidy x p slots q) (hcomma : q.next ≠ .comma)
    (hready : x.ReadyMember list after p.kinds) (hp : p.nesting.exhausted = false)
    (hq : q.nesting.refusals = p.nesting.refusals) (hkind : kind ≠ .unexpected) :
    Sketch.anyError [.node kind false (slots ++ [.absent])] = false ∧
      after q.kinds ∧ q.nesting.exhausted = false := by
  rcases hready with hlast | hmore
  · obtain ⟨hclean, ⟨-, hafter⟩, hend⟩ := ihx hlast hp hq rfl
    refine ⟨?_, hafter, hend⟩
    simp [Sketch.anyError, Sketch.hasError, Sketch.anyError_append, hclean, hkind]
  · obtain ⟨-, ⟨u, hu, -⟩, -⟩ := ihx hmore hp hq rfl
    rw [Reader.next_eq_first, hu] at hcomma
    exact absurd rfl hcomma

end Members

end Tidy

/-- Whatever its goal is ready for, a derivation reads without errors if no level is refused. -/
theorem tidy (h : Reads goal p slots q) : Tidy goal p slots q := by
  -- the induction is on the derivation; what is left is described by the condition `after`
  induction h <;> intro after hready hp hq hheld
  case token ht => exact ⟨rfl, hready _ (by rw [← ht]; rfl), hp⟩
  case missing | stray => exact hready.elim
  case absent | nil => exact ⟨rfl, hready, hp⟩
  case there hfirst _ ih =>
    rw [Reader.next_eq_first] at hfirst
    simp only [Goal.Ready, Phrase.Ready, hfirst, if_true] at hready
    exact ih hready hp hq rfl
  case other hfirst _ ih =>
    rw [Reader.next_eq_first] at hfirst
    simp only [Goal.Ready, Phrase.Ready, hfirst] at hready
    exact ih hready hp hq rfl
  case cons hx hxs ihx ihxs => exact ihx.append ihxs hx hxs hready hp hq
  case node kind parts p q slots _ ih =>
    obtain ⟨hclean, hafter⟩ := ih hready.2 hp hq rfl
    refine ⟨?_, hafter⟩
    simp [Sketch.anyError, Sketch.hasError, hclean, hready.1]
  case calm _ => exact ⟨rfl, hready, rfl⟩
  case rescue hstuck _ _ =>
    rw [Reader.isStuck, hp] at hstuck
    cases hstuck
  case tooDeep henter | linkRefused _ _ henter | callRefused _ henter =>
    have hrefusals := Nesting.refusals_of_refused henter
    exact absurd (hrefusals.symm.trans hq) (Nat.succ_ne_self _)
  case operators first slots hfirst hlinks ihfirst ihlinks =>
    exact (ihfirst.andThen ihlinks hfirst hlinks (Goal.ready_prefixed hready first) hp hq id).2
  case linksDone hpower =>
    rw [Reader.next_eq_first] at hpower
    exact ⟨hheld, Goal.after_of_links hready hpower, hp⟩
  case link hpower _ henter hrhs hlinks ihrhs ihlinks =>
    obtain ⟨hgranted, hn⟩ := Nesting.enter_of_granted henter
    refine (ihrhs.andThen ihlinks hrhs hlinks (Goal.ready_operators hready hpower) hgranted
      (hq.trans hn.symm) fun hclean => ?_).2
    simp only [Goal.held, Sketch.anyError, Bool.or_false] at hheld hclean
    simp [Goal.held, Sketch.anyError, Sketch.hasError, hheld, hclean]
  case negated henter hminus _ ih =>
    obtain ⟨hgranted, hn⟩ := Nesting.enter_of_granted henter
    rw [Reader.kinds_cons, hminus] at hready
    obtain ⟨hclean, hend⟩ := ih (Goal.ready_negated hready) hgranted (hq.trans hn.symm) rfl
    refine ⟨?_, hend⟩
    simpa [Sketch.anyError, Sketch.hasError] using hclean
  case operand callee slots henter hminus hcallee hcalls ihcallee ihcalls =>
    obtain ⟨hgranted, hn⟩ := Nesting.enter_of_granted henter
    rw [Reader.next_eq_first] at hminus
    exact (ihcallee.andThen ihcalls hcallee hcalls (Goal.ready_callee hready hminus callee)
      hgranted (hq.trans hn.symm) id).2
  case callsDone hnext =>
    rw [Reader.next_eq_first] at hnext
    exact ⟨hheld, Goal.after_of_calls hready hnext, hp⟩
  case call hnext henter hclause hcalls ihclause ihcalls =>
    obtain ⟨hgranted, hn⟩ := Nesting.enter_of_granted henter
    rw [Reader.next_eq_first] at hnext
    refine (ihclause.andThen ihcalls hclause hcalls (Goal.ready_argClause_of_calls hready hnext)
      hgranted (hq.trans hn.symm) fun hclean => ?_).2
    simp only [Goal.held, Sketch.anyError, Bool.or_false] at hheld hclean
    simp [Goal.held, Sketch.anyError, Sketch.hasError, hheld, hclean]
  case argsDone hat =>
    rw [Reader.atArgument_eq hp, Bool.or_eq_false_iff] at hat
    exact ⟨rfl, Phrase.after_of_args hready hat.2, hp⟩
  case argMore hat harg hcomma hmore iharg ihmore =>
    rw [Reader.atArgument_eq hp] at hat
    exact iharg.memberMore ihmore harg hmore hcomma (Phrase.ready_arg hready hat) hp hq (by decide)
  case argLast hat _ hcomma iharg =>
    rw [Reader.atArgument_eq hp] at hat
    exact iharg.memberLast hcomma (Phrase.ready_arg hready hat) hp hq (by decide)
  case paramsDone hnext =>
    rw [Reader.next_eq_first] at hnext
    exact ⟨rfl, Phrase.after_of_params hready hnext, hp⟩
  case paramMore hparam hcomma hmore ihparam ihmore =>
    exact ihparam.memberMore ihmore hparam hmore hcomma (Phrase.ready_parameter hready) hp hq
      (by decide)
  case paramLast _ hcomma ihparam =>
    exact ihparam.memberLast hcomma (Phrase.ready_parameter hready) hp hq (by decide)
  case stmtsDone hdone =>
    rw [Reader.next_eq_first] at hdone
    exact ⟨rfl, Phrase.after_of_stmts hready hdone, hp⟩
  case stmtsMore hmore hstmt hrest ihstmt ihrest =>
    rw [Reader.next_eq_first] at hmore
    exact ihstmt.append ihrest hstmt hrest (Phrase.ready_stmts hready hmore) hp hq
  case itemsDone hdone =>
    rw [Reader.next_eq_first] at hdone
    exact ⟨rfl, Phrase.after_of_items hready hdone, hp⟩
  case itemsMore hmore hitem hrest ihitem ihrest =>
    rw [Reader.next_eq_first] at hmore
    exact ihitem.append ihrest hitem hrest
      (Phrase.ready_item hready.1 hmore fun w hw => ⟨hw, hready.2⟩) hp hq

end Reads

end Verbatim
