import Verbatim.Proofs.Descent.Expressions

/-!
# Declarations carry their derivations out

Types, variables, statements, functions and items, up to the whole file. No production here can
fail: stray text is set aside only where there is a token, and each round of a loop consumes one. A
statement that is an expression consumes a token because recovery has let the grammar descend again.
-/

namespace Verbatim

namespace Reads

variable {p q : Reader} {slots : List Sketch}

/-- Setting tokens aside gets on. -/
theorem length_lt_of_stray {stop : KindSet} (h : Reads (Phrase.stray stop) p slots q) :
    q.rest.length < p.rest.length := by
  cases h with
  | stray => exact Nat.lt_succ_of_le (List.dropWhile_suffix _).length_le

/-- An operand that may start here consumes a token, unless it starts with a sign. -/
theorem length_lt_of_primary (h : Reads Phrase.primary p slots q)
    (hfirst : Grammar.exprFirst.contains p.next = true) (hminus : p.next ≠ .minus) :
    q.rest.length < p.rest.length := by
  cases h with
  | there _ hx => exact hx.length_lt_of_token
  | other hnumber hx =>
    cases hx with
    | there _ hx => exact hx.length_lt_of_token
    | other hname hx =>
      cases hx with
      | there _ hx => exact hx.length_lt_of_token
      | other hparen hx =>
        simp only [KindSet.contains_single, beq_eq_false_iff_ne, ne_eq] at hnumber hname hparen
        simp [Grammar.exprFirst, hnumber, hname, hparen, hminus] at hfirst

/-- An expression that may start here consumes a token if it can descend. -/
theorem length_lt_of_operators {m : Nat} (h : Reads (Phrase.operators m) p slots q)
    (hfirst : Grammar.exprFirst.contains p.next = true) (henter : p.enter.1 = true) :
    q.rest.length < p.rest.length := by
  cases h with
  | operators hprefixed hlinks =>
    refine Nat.lt_of_le_of_lt hlinks.rest_suffix.length_le ?_
    cases hprefixed with
    | tooDeep hrefused =>
      rw [henter] at hrefused
      cases hrefused
    | negated _ _ hoperand => exact Nat.lt_succ_of_le hoperand.rest_suffix.length_le
    | operand _ hminus hcallee hcalls =>
      exact Nat.lt_of_le_of_lt hcalls.rest_suffix.length_le
        (hcallee.length_lt_of_primary hfirst hminus)

/-- A statement consumes a token if the grammar can descend. -/
theorem length_lt_of_stmt (h : Reads Phrase.stmt p slots q) (henter : p.enter.1 = true) :
    q.rest.length < p.rest.length := by
  cases h with
  | there _ hx => exact hx.length_lt_of_token
  | other _ hx =>
    cases hx with
    | there _ hx => exact hx.length_lt_of_token
    | other _ hx =>
      cases hx with
      | there hfirst hx =>
        cases hx with
        | node hparts =>
          cases hparts with
          | cons hexpr hrest =>
            exact Nat.lt_of_le_of_lt hrest.length_le (hexpr.length_lt_of_operators hfirst henter)
      | other _ hx => exact hx.length_lt_of_stray

/-- An item consumes a token. -/
theorem length_lt_of_item (h : Reads Phrase.item p slots q) : q.rest.length < p.rest.length := by
  cases h with
  | there _ hx => exact hx.length_lt_of_token
  | other _ hx =>
    cases hx with
    | there _ hx => exact hx.length_lt_of_token
    | other _ hx => exact hx.length_lt_of_stray

/-- The items of a file go on to the end of the text. -/
theorem next_of_items (h : Reads Phrase.items p slots q) : q.next = .eof := by
  obtain ⟨goal, hgoal⟩ : ∃ goal : Goal, goal = Phrase.items := ⟨_, rfl⟩
  rw [← hgoal] at h
  induction h with
  | itemsDone h => exact h
  | itemsMore _ _ _ _ ih => exact ih rfl
  | _ => cases hgoal

/-- After recovery the grammar can descend as before. -/
theorem enter_of_recovery {stop : KindSet} (h : Reads (Phrase.recovery stop) p slots q)
    (hdepth : p.nesting.depth < maxNesting) : q.enter.1 = true := by
  rw [Reader.enter, h.nesting_of_recovery]
  exact Nesting.enter_eq_true_iff.mpr ⟨rfl, hdepth⟩

end Reads

namespace Grammar

variable {p : Reader}

section Types

theorem carries_typeName : Carries typeName .typeName p :=
  carries_choice runs_at_single
    (fun h => (fulfils_tokenNode (by simpa using h) (by decide)).discard)
    (fun _ => carries_missing)

/-- A type after a mark is read where the mark stands. -/
theorem carries_typeAfter {mark node : Kind} (h : p.next = mark) (hmark : mark ≠ .eof) :
    Carries (typeAfter mark node) (.typeAfter mark node) p :=
  carries_insist h (carries_node (.cons (carries_advance h hmark) fun _ _ _ =>
    .cons carries_typeName fun _ _ _ => .nil_discard))

end Types

section Strays

variable {stop : KindSet} {t : Token} {rest : List Token} {n : Nesting} {d : Draft}

/-- Setting tokens aside is done when the next one stops it. -/
theorem runs_consumeStep_done
    (h : ((⟨rest, n⟩ : Reader).next == .eof || stop.contains (⟨rest, n⟩ : Reader).next) = true) :
    Runs (consumeStep stop) ⟨t :: rest, n⟩ d (.done ()) ⟨rest, n⟩ (d.fill (.token t)) :=
  runs_advance.bind ((runs_at _).bind ((runs_atAny _).bind (.ite_pos h (.pure _))))

/-- Setting tokens aside goes on while nothing stops it. -/
theorem runs_consumeStep_yield
    (h : ((⟨rest, n⟩ : Reader).next == .eof || stop.contains (⟨rest, n⟩ : Reader).next) = false) :
    Runs (consumeStep stop) ⟨t :: rest, n⟩ d (.yield ()) ⟨rest, n⟩ (d.fill (.token t)) :=
  runs_advance.bind ((runs_at _).bind ((runs_atAny _).bind (.ite_neg (by simp only [h]; simp)
    (.pure _))))

/-- The loop that sets tokens aside. -/
theorem runs_consumeSteps (hp : (⟨t :: rest, n⟩ : Reader).Sound) (bound : List Token)
    (hbound : rest.length ≤ bound.length) (d : Draft) :
    Runs (repeatAlong (fun _ => consumeStep stop) bound ()) ⟨t :: rest, n⟩ d ()
      ⟨rest.dropWhile fun u => !stop.contains u.kind, n⟩
      (d.fills ((t :: rest.takeWhile fun u => !stop.contains u.kind).map Sketch.token)) := by
  induction bound generalizing t rest d with
  | nil =>
    obtain rfl := List.length_eq_zero_iff.mp (Nat.le_zero.mp hbound)
    exact runs_repeatAlong_done (runs_consumeStep_done rfl) _
  | cons u bound ih =>
    cases rest with
    | nil => exact runs_repeatAlong_done (runs_consumeStep_done rfl) _
    | cons v rest =>
      have hne : v.kind ≠ .eof := hp.tail.kind_ne_eof v List.mem_cons_self
      cases hv : stop.contains v.kind with
      | true =>
        rw [List.dropWhile_cons_of_neg (by simp [hv]), List.takeWhile_cons_of_neg (by simp [hv])]
        exact runs_repeatAlong_done (runs_consumeStep_done (by simp [hv])) _
      | false =>
        rw [List.dropWhile_cons_of_pos (by simp [hv]), List.takeWhile_cons_of_pos (by simp [hv])]
        have hloop := @ih v rest hp.tail (Nat.le_of_succ_le_succ hbound) (d.fill (.token t))
        rw [Draft.fill_fills] at hloop
        exact runs_repeatAlong_yield (runs_consumeStep_yield (by simp [hv, hne])) hloop

/-- Stray tokens are set aside wherever a token is left. -/
theorem carries_wrapUnexpected (hp : p.Sound) (h : p.next ≠ .eof) :
    Carries (wrapUnexpected stop) (.stray stop) p := by
  obtain ⟨t, rest, hpt, -⟩ := Reader.exists_of_next_eq rfl h
  rw [hpt] at hp h ⊢
  refine ⟨_, _, .stray, fun d => (runs_at _).bind (.ite_neg (by simpa using h) ?_)⟩
  exact runs_start.bind ((runs_repeatTokens (runs_consumeSteps hp _ (Nat.le_succ _) _)).bind
    runs_complete.discard)

/-- The slot for stray tokens. -/
theorem carries_wrapUntil (hp : p.Sound) : Carries (wrapUntil stop) (.strayUntil stop) p := by
  cases h : (p.next == .eof || stop.contains p.next) with
  | true =>
    refine .there (by simpa [or_comm] using h) ⟨_, p, .absent, fun d => ?_⟩
    exact (runs_at _).bind ((runs_atAny _).bind (.ite_pos h runs_absent))
  | false =>
    obtain ⟨hne, hstop⟩ := Bool.or_eq_false_iff.mp h
    obtain ⟨slots, q, hreads, hruns⟩ := @carries_wrapUnexpected _ stop hp (by simpa using hne)
    refine .other (by simpa [and_comm] using h) ⟨slots, q, hreads, fun d => ?_⟩
    exact (runs_at _).bind ((runs_atAny _).bind (.ite_neg (by simp only [h]; simp) (hruns d)))

/-- Recovery after the nesting limit was met. -/
theorem carries_recoverNesting (hp : p.Sound) :
    Carries (recoverNesting stop) (.recovery stop) p := by
  have hcalm (d : Draft) : Runs (modify fun x => { x with nesting := { x.nesting with
      exhausted := false } }) p d () p.calm d :=
    .move fun x hx => ⟨{ x with nesting := { x.nesting with exhausted := false } }, rfl,
      by subst hx; rfl, rfl, rfl⟩
  cases h : p.isStuck stop with
  | true =>
    have hne : p.next ≠ .eof := by
      simp only [Reader.isStuck, Bool.and_eq_true] at h
      simpa using h.1.2
    obtain ⟨slots, q, hreads, hruns⟩ := @carries_wrapUnexpected _ stop hp.calm hne
    refine ⟨slots, q, .rescue h hreads, fun d => runs_nestingExhausted.bind ((hcalm d).bind ?_)⟩
    exact (runs_at _).bind ((runs_atAny _).bind (.ite_pos h (hruns d)))
  | false =>
    refine ⟨[], p.calm, .calm h, fun d => runs_nestingExhausted.bind ((hcalm d).bind ?_)⟩
    rw [Draft.fills_nil]
    exact (runs_at _).bind ((runs_atAny _).bind (.ite_neg (show ¬ p.isStuck stop = true by simp [h])
      (.pure _)))

end Strays

section Statements

/-- A value is read where the equals sign stands. -/
theorem carries_initializer (hp : p.Sound) (h : p.next = .eq) :
    Carries initializer .initializer p :=
  carries_node (.cons (carries_advance h (by decide)) fun _ _ hq =>
    .cons (fulfils_expr (hq.shallow hp.shallow)).discard fun _ _ _ => .nil_discard)

/-- A declaration is read where its keyword stands. -/
theorem carries_letDecl (hp : p.Sound) (h : p.next = .letKw) : Carries letDecl .letDecl p := by
  refine carries_insist h (carries_node (.cons (carries_advance h (by decide)) fun _ q hq => ?_))
  refine .cons (carries_expect (by decide)) fun _ r hr => ?_
  refine .either runs_at_single
    (fun hcolon => carries_typeAfter (by simpa using hcolon) (by decide))
    (fun _ => carries_absent) fun _ u hu => ?_
  have hsound := hu.sound (hr.sound (hq.sound hp))
  exact .either runs_at_single (fun heq => carries_initializer hsound (by simpa using heq))
    (fun _ => carries_absent) fun _ _ _ => .nil_discard

/-- A return statement is read where its keyword stands. -/
theorem carries_returnStmt (hp : p.Sound) (h : p.next = .returnKw) :
    Carries returnStmt .returnStmt p := by
  refine carries_node (.cons (carries_advance h (by decide)) fun _ q hq => ?_)
  exact .either (fun _ => runs_atAny _) (fun _ => (fulfils_expr (hq.shallow hp.shallow)).discard)
    (fun _ => carries_absent) fun _ _ _ => .nil_discard

/-- A statement is read before the end of the text. -/
theorem carries_stmt (hp : p.Sound) (h : p.next ≠ .eof) : Carries stmt .stmt p := by
  refine carries_peek ?_
  split
  · next hlet => exact .there (by simp [hlet]) (carries_letDecl hp hlet)
  · next hreturn =>
    exact .other (by simp [hreturn]) (.there (by simp [hreturn]) (carries_returnStmt hp hreturn))
  · next hlet hreturn =>
    refine .other (by simpa using hlet) (.other (by simpa using hreturn) ?_)
    split
    · next hfirst =>
      exact .there hfirst (carries_node (.cons (fulfils_expr hp.shallow).discard fun _ _ _ =>
        .nil_discard))
    · next hfirst => exact .other (by simpa using hfirst) (carries_wrapUnexpected hp h)

/-- A loop of rounds carries its derivation out if each round reads what it should, consumes a token
and leaves the grammar able to descend. -/
theorem carries_rounds {step : Grammar (ForInStep Unit)} {loop round : Phrase}
    {isDone : Reader → Bool} (heof : ∀ p : Reader, p.next = .eof → isDone p = true)
    (hdone : ∀ p, isDone p = true → Reads loop p [] p ∧ ∀ d : Draft, Runs step p d (.done ()) p d)
    (hstep : ∀ p : Reader, p.Sound → p.enter.1 = true → isDone p = false → ∃ slots q,
      Reads round p slots q ∧ q.rest.length < p.rest.length ∧ q.enter.1 = true ∧
        ∀ d : Draft, Runs step p d (.yield ()) q (d.fills slots))
    (hmore : ∀ (p q r : Reader) (slots more : List Sketch), isDone p = false →
      Reads round p slots q → Reads loop q more r → Reads loop p (slots ++ more) r)
    (bound : List Token) (hp : p.Sound) (henter : p.enter.1 = true)
    (hbound : p.rest.length ≤ bound.length) :
    Carries (repeatAlong (fun _ => step) bound ()) loop p := by
  have hend {p : Reader} (h : isDone p = true) (bound : List Token) :
      Carries (repeatAlong (fun _ => step) bound ()) loop p :=
    ⟨[], p, (hdone p h).1, fun d => d.fills_nil.symm ▸ runs_repeatAlong_done ((hdone p h).2 d) _⟩
  induction bound generalizing p with
  | nil => exact hend (heof p (Reader.next_eq_eof (Nat.le_zero.mp hbound))) _
  | cons u bound ih =>
    cases h : isDone p with
    | true => exact hend h _
    | false =>
      obtain ⟨slots, q, hround, hlt, hq, hruns⟩ := hstep p hp henter h
      simp only [List.length_cons] at hbound
      obtain ⟨more, r, hrest, hloop⟩ := ih (hround.sound hp) hq (by omega)
      refine ⟨_, r, hmore p q r slots more h hround hrest, fun d => ?_⟩
      rw [← Draft.fills_fills]
      exact runs_repeatAlong_yield (hruns d) (hloop _)

/-- What is read in one round and what is set aside after it. -/
theorem exists_round {g : Grammar Unit} {x : Phrase} {stop : KindSet} (hg : Carries g x p)
    (hp : p.Sound) (henter : p.enter.1 = true)
    (hlt : ∀ slots q, Reads x p slots q → q.rest.length < p.rest.length) :
    ∃ slots q, Reads (.seq [x, .recovery stop] : Phrase) p slots q ∧
      q.rest.length < p.rest.length ∧ q.enter.1 = true ∧ ∀ d : Draft,
        Runs (do g; recoverNesting stop; return .yield ()) p d (ForInStep.yield ()) q
          (d.fills slots) := by
  obtain ⟨slots, q, hreads, hruns⟩ := hg
  obtain ⟨strays, r, hrecovery, hrecover⟩ := @carries_recoverNesting q stop (hreads.sound hp)
  have hlow := Nesting.depth_lt_of_granted henter
  refine ⟨_, r, .cons hreads (.cons hrecovery .nil), ?_, ?_, fun d => ?_⟩
  · exact Nat.lt_of_le_of_lt hrecovery.length_le (hlt slots q hreads)
  · exact hrecovery.enter_of_recovery (by rw [hreads.depth_eq]; exact hlow)
  · rw [List.append_nil, ← Draft.fills_fills]
    exact (hruns d).bind ((hrecover _).bind (.pure _))

/-- The loop over the statements ends with the block. -/
theorem runs_blockStep_done (h : (p.next == .eof || blockEnd.contains p.next) = true) (d : Draft) :
    Runs blockStep p d (.done ()) p d :=
  (runs_at _).bind ((runs_atAny _).bind (.ite_pos h (.pure _)))

/-- One round of the loop over the statements. -/
theorem exists_runs_blockStep (hp : p.Sound) (henter : p.enter.1 = true)
    (h : (p.next == .eof || blockEnd.contains p.next) = false) :
    ∃ slots q, Reads (.seq [.stmt, .recovery nestingStop] : Phrase) p slots q ∧
      q.rest.length < p.rest.length ∧ q.enter.1 = true ∧
        ∀ d : Draft, Runs blockStep p d (.yield ()) q (d.fills slots) := by
  obtain ⟨slots, q, hround, hlt, hq, hruns⟩ := @exists_round p stmt .stmt nestingStop
    (carries_stmt hp (by simpa using (Bool.or_eq_false_iff.mp h).1)) hp henter
    fun _ _ hstmt => hstmt.length_lt_of_stmt henter
  refine ⟨slots, q, hround, hlt, hq, fun d => ?_⟩
  exact (runs_at _).bind ((runs_atAny _).bind (.ite_neg (by simp only [h]; simp) (hruns d)))

/-- Statements are read one after the other, as long as there are tokens. -/
theorem carries_stmts (bound : List Token) (hp : p.Sound) (henter : p.enter.1 = true)
    (hbound : p.rest.length ≤ bound.length) :
    Carries (repeatAlong (fun _ => blockStep) bound ()) .stmts p :=
  @carries_rounds p blockStep .stmts (.seq [.stmt, .recovery nestingStop])
    (fun p => p.next == .eof || blockEnd.contains p.next) (fun p h => by simp [h])
    (fun _ h => ⟨.stmtsDone h, runs_blockStep_done h⟩)
    (fun _ hp henter h => exists_runs_blockStep hp henter h)
    (fun p q r slots more h => .stmtsMore h) bound hp henter hbound

/-- A block is read where its brace stands. -/
theorem carries_codeBlock (hp : p.Sound) (henter : p.enter.1 = true) (h : p.next = .lBrace) :
    Carries codeBlock .codeBlock p := by
  refine carries_insist h (carries_node (.cons (carries_advance h (by decide)) fun _ q hq => ?_))
  refine .list ?_ fun _ _ _ => .cons (carries_expect (by decide)) fun _ _ _ => .nil_discard
  have hn : q.enter.1 = p.enter.1 := by rw [Reader.enter, hq.nesting_eq rfl, Reader.enter]
  obtain ⟨slots, r, hreads, hruns⟩ := carries_stmts q.rest (hq.sound hp) (hn ▸ henter)
    (Nat.le_refl _)
  exact ⟨slots, r, hreads, fun d => runs_repeatTokens (hruns d)⟩

end Statements

section Functions

/-- One parameter up to its comma. -/
theorem exists_runs_parameter (h : p.next = .ident) :
    ∃ slots q, Reads (.seq [.token .ident, .required .colon, .typeName] : Phrase) p slots q ∧
      ∀ (d : Draft) (a : ForInStep Unit) (r : Reader) (e : Draft),
        Runs (closeMember ⟨d.size.toUInt32⟩ .param) q (d.start.fills slots) a r e →
          Runs parameter p d a r e := by
  obtain ⟨name, q, hname, hrunsName⟩ := carries_advance h (by decide)
  obtain ⟨colon, r, hcolon, hrunsColon⟩ := @carries_expect q .colon (by decide)
  obtain ⟨type, w, htype, hrunsType⟩ := @carries_typeName r
  refine ⟨_, w, .cons hname (.cons hcolon (.cons htype .nil)), fun d a u e hrest => ?_⟩
  rw [List.append_nil, ← Draft.fills_fills, ← Draft.fills_fills] at hrest
  exact (runs_at _).bind (.ite_pos (by simp [h]) (runs_start.bind ((hrunsName _).bind
    ((hrunsColon _).bind ((hrunsType _).bind hrest)))))

/-- The loop over the parameters. -/
theorem carries_params (bound : List Token) (hbound : p.rest.length ≤ bound.length) :
    Carries (repeatAlong (fun _ => parameter) bound ()) .params p := by
  have hdone {p : Reader} (h : p.next ≠ .ident) (bound : List Token) :
      Carries (repeatAlong (fun _ => parameter) bound ()) .params p :=
    ⟨[], p, .paramsDone h, fun d => d.fills_nil.symm ▸ runs_repeatAlong_done
      ((runs_at _).bind (.ite_neg (by simpa using h) (.pure _))) _⟩
  induction bound generalizing p with
  | nil => exact hdone (by rw [Reader.next_eq_eof (Nat.le_zero.mp hbound)]; decide) _
  | cons u bound ih =>
    by_cases h : p.next = .ident
    · obtain ⟨slots, q, hparam, hruns⟩ := exists_runs_parameter h
      by_cases hcomma : q.next = .comma
      · obtain ⟨t, rest, hq, ht⟩ := Reader.exists_of_next_eq hcomma (by decide)
        rw [hq] at hparam hruns
        have hle := hparam.length_le
        simp only [List.length_cons] at hle hbound
        obtain ⟨more, r, hmore, hloop⟩ := @ih ⟨rest, q.nesting⟩ (by simp only; omega)
        refine ⟨_, r, .paramMore hparam ht hmore, fun d => ?_⟩
        have hrest := hloop (d.fill (.node .param false (slots ++ [.token t])))
        rw [Draft.fill_fills] at hrest
        exact runs_repeatAlong_yield (hruns _ _ _ _ (runs_closeMember_comma ht)) hrest
      · refine ⟨_, q, .paramLast hparam hcomma, fun d => ?_⟩
        exact runs_repeatAlong_done (hruns _ _ _ _ (runs_closeMember_last hcomma)) _
    · exact hdone h _

/-- Parameters are read where the parenthesis stands. -/
theorem carries_paramClause (hp : p.Sound) (h : p.next = .lParen) :
    Carries paramClause .paramClause p := by
  refine carries_insist h (carries_node (.cons (carries_advance h (by decide)) fun _ q hq => ?_))
  refine .list ?_ fun _ r hr => .cons (carries_wrapUntil (hr.sound (hq.sound hp))) fun _ _ _ =>
    .cons (carries_expect (by decide)) fun _ _ _ => .nil_discard
  obtain ⟨slots, r, hreads, hruns⟩ := carries_params q.rest (Nat.le_refl _)
  exact ⟨slots, r, hreads, fun d => runs_repeatTokens (hruns d)⟩

/-- A function is read where its keyword stands. -/
theorem carries_funcDecl (hp : p.Sound) (henter : p.enter.1 = true) (h : p.next = .funcKw) :
    Carries funcDecl .funcDecl p := by
  refine carries_node (.cons (carries_advance h (by decide)) fun _ q hq => ?_)
  refine .cons (carries_expect (by decide)) fun _ r hr => ?_
  have hsoundr := hr.sound (hq.sound hp)
  refine .cons (carries_wrapUntil hsoundr) fun _ u hu => ?_
  have hsoundu := hu.sound hsoundr
  refine .either runs_at_single (fun hparen => carries_paramClause hsoundu (by simpa using hparen))
    (fun _ => carries_missing) fun _ v hv => ?_
  refine .either runs_at_single
    (fun harrow => carries_typeAfter (by simpa using harrow) (by decide))
    (fun _ => carries_absent) fun _ w hw => ?_
  have hnesting : w.nesting = p.nesting := by
    rw [hw.nesting_eq rfl, hv.nesting_eq rfl, hu.nesting_eq rfl, hr.nesting_eq rfl,
      hq.nesting_eq rfl]
  have hwenter : w.enter.1 = true := by
    rw [Reader.enter, hnesting]
    exact henter
  exact .either runs_at_single
    (fun hbrace => carries_codeBlock (hw.sound (hv.sound hsoundu)) hwenter (by simpa using hbrace))
    (fun _ => carries_missing) fun _ _ _ => .nil_discard

end Functions

section Items

/-- An item is read before the end of the text. -/
theorem carries_item (hp : p.Sound) (henter : p.enter.1 = true) (h : p.next ≠ .eof) :
    Carries item .item p := by
  refine carries_peek ?_
  split
  · next hfunc => exact .there (by simp [hfunc]) (carries_funcDecl hp henter hfunc)
  · next hlet =>
    exact .other (by simp [hlet]) (.there (by simp [hlet]) (carries_letDecl hp hlet))
  · next hfunc hlet =>
    exact .other (by simpa using hfunc) (.other (by simpa using hlet) (carries_wrapUnexpected hp h))

/-- The loop over the items ends with the text. -/
theorem runs_fileStep_done (h : (p.next == .eof) = true) (d : Draft) :
    Runs fileStep p d (.done ()) p d :=
  (runs_at _).bind (.ite_pos h (.pure _))

/-- One round of the loop over the items. -/
theorem exists_runs_fileStep (hp : p.Sound) (henter : p.enter.1 = true)
    (h : (p.next == .eof) = false) :
    ∃ slots q, Reads (.seq [.item, .recovery itemFirst] : Phrase) p slots q ∧
      q.rest.length < p.rest.length ∧ q.enter.1 = true ∧
        ∀ d : Draft, Runs fileStep p d (.yield ()) q (d.fills slots) := by
  obtain ⟨slots, q, hround, hlt, hq, hruns⟩ := @exists_round p item .item itemFirst
    (carries_item hp henter (by simpa using h)) hp henter fun _ _ hitem => hitem.length_lt_of_item
  refine ⟨slots, q, hround, hlt, hq, fun d => ?_⟩
  exact (runs_at _).bind (.ite_neg (by simp only [h]; simp) (hruns d))

/-- Items are read one after the other, as long as there are tokens. -/
theorem carries_items (bound : List Token) (hp : p.Sound) (henter : p.enter.1 = true)
    (hbound : p.rest.length ≤ bound.length) :
    Carries (repeatAlong (fun _ => fileStep) bound ()) .items p :=
  @carries_rounds p fileStep .items (.seq [.item, .recovery itemFirst])
    (fun p => p.next == .eof) (fun p h => by simp [h])
    (fun _ h => ⟨.itemsDone (by simpa using h), runs_fileStep_done h⟩)
    (fun _ hp henter h => exists_runs_fileStep hp henter h)
    (fun p q r slots more h => .itemsMore (by simpa using h)) bound hp henter hbound

end Items

section File

/-- The list of items, in a file that is still open. -/
theorem exists_runs_itemList (hp : p.Sound) (henter : p.enter.1 = true) :
    ∃ slots q, Reads Phrase.items p slots q ∧ ∀ d : Draft,
      Runs (do
        let m ← start
        let items ← start
        repeatTokens () fun _ => fileStep
        discard (complete items .itemList)
        return m) p d ⟨d.size.toUInt32⟩ q (d.start.fill (.node .itemList false slots)) := by
  obtain ⟨slots, q, hreads, hruns⟩ := carries_items p.rest hp henter (Nat.le_refl _)
  refine ⟨slots, q, hreads, fun d => runs_start.bind (runs_start.bind ?_)⟩
  exact (runs_repeatTokens (hruns _)).bind (runs_complete.discard.bind (.pure _))

/-- At the end of the text its last token is written down. -/
theorem finishInput_eq {x : Parser} (h : x.reader.next = .eof) :
    finishInput x = .ok ((), x.emit (.token x.eof)) := by
  have hinsist : insist .eof x = .ok ((), x) := by
    change (if x.nextKind = .eof then pure () else throw _ : Grammar Unit) x = _
    rw [if_pos (show x.nextKind = .eof from h)]
    rfl
  exact bind_eq_of_ok hinsist

/-- A file is its items, which are read first, and the end of the text. -/
theorem sourceFile_eq :
    sourceFile = (do
      let m ← start
      let items ← start
      repeatTokens () fun _ => fileStep
      discard (complete items .itemList)
      return m) >>= fun m => (do
        finishInput
        discard (complete m .sourceFile)) := by
  simp only [sourceFile, bind_assoc, pure_bind]

end File

end Grammar

/-- The sketch of a file. -/
def Sketch.file (items : List Sketch) (eof : Token) : Sketch :=
  .node .sourceFile false [.node .itemList false items, .token eof]

namespace TokenStream

open Grammar

variable {s : TokenStream}

theorem parsed_eq_of_ok {y : Parser} (h : sourceFile (.ofStream s) = .ok ((), y)) :
    s.parsed = .ok y := by
  change (sourceFile (.ofStream s) >>= fun r => Except.ok r.2) = _
  rw [h]
  rfl

theorem parsed_eq_of_error {fault : Fault} (h : sourceFile (.ofStream s) = .error fault) :
    s.parsed = .error fault := by
  change (sourceFile (.ofStream s) >>= fun r => Except.ok r.2) = _
  rw [h]
  rfl

/-- A parse reads the items of the text to its end and writes the file down. It cannot fail unless
some node starts past the last position. -/
theorem exists_parsed (hs : ∀ t ∈ s.tokens, t.kind ≠ .eof) :
    ∃ items q, Reads Phrase.items ⟨s.tokens, {}⟩ items q ∧ q.rest = [] ∧
      ((∃ y, s.parsed = .ok y ∧ y.reader = q ∧ y.eof = s.eof ∧
          y.Shows (Draft.fill {} (.file items s.eof))) ∨
        (∃ fault, s.parsed = .error fault ∧ fault.isMisplaced = true) ∧
          ¬ Event.Fits (Draft.fill {} (.file items s.eof)).events) := by
  have hsound : (⟨s.tokens, {}⟩ : Reader).Sound := ⟨hs, Nat.zero_le _⟩
  obtain ⟨items, q, hreads, hruns⟩ := exists_runs_itemList hsound
    (Nesting.enter_eq_true_iff.mpr ⟨rfl, (by decide : 0 < maxNesting)⟩)
  have heof := hreads.next_of_items
  refine ⟨items, q, hreads, (hreads.sound hsound).rest_eq_nil heof, ?_⟩
  have hempty : (Parser.ofStream s).Shows {} := Parser.shows_base _
  have hclose :=
    (@runs_complete q {} [.node .itemList false items, .token s.eof] .sourceFile).discard
  rcases (hruns {}).run (.ofStream s) rfl hempty with
    ⟨x, hx, hq, hxeof, hshows⟩ | ⟨⟨f, hf, hmisplaced⟩, hnot⟩
  · have hrun : sourceFile (.ofStream s) =
        discard (complete ⟨(0 : Nat).toUInt32⟩ .sourceFile) (x.emit (.token s.eof)) := by
      rw [sourceFile_eq, bind_eq_of_ok hx, bind_eq_of_ok (finishInput_eq (hq ▸ heof)), hxeof]
      rfl
    rcases hclose.run (x.emit (.token s.eof)) hq (hshows.fill_token _) with
      ⟨y, hy, hyq, hyeof, hyshows⟩ | ⟨⟨f, hf, hmisplaced⟩, hnot⟩
    · exact .inl ⟨y, parsed_eq_of_ok (hrun.trans hy), hyq, hyeof.trans hxeof, hyshows⟩
    · exact .inr ⟨⟨f, parsed_eq_of_error (hrun.trans hf), hmisplaced⟩, hnot⟩
  · refine .inr ⟨⟨f, parsed_eq_of_error ?_, hmisplaced⟩, fun hfits => hnot ?_⟩
    · rw [sourceFile_eq, bind_eq_of_error hf]
    · exact @Draft.fits_of_fill ((Draft.start {}).fill _) _ (hclose.fits hfits)

end TokenStream

end Verbatim
