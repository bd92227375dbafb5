import Verbatim.Proofs.Descent

/-!
# Expressions carry their derivations out

The productions of expressions recurse into each other, and each is given a number of levels that is
spent with the recursion. The levels never run out: whoever recurses has entered a nesting level
before, and the limit on nesting is below the number of levels at the start. What is proved of an
expression inside another is therefore assumed from some depth on, the floor.
-/

namespace Verbatim

namespace Grammar

section Expressions

variable {expr : Grammar Completed} {floor : Nat} {p : Reader}

/-- An argument up to its comma. -/
theorem runs_argument {s : Sketch} {q r : Reader} {d e : Draft} {a : ForInStep Unit}
    (h : p.atArgument = true) (hs : ∀ d : Draft, Runs expr p d (d.mark s) q (d.fill s))
    (hclose : Runs (closeMember ⟨d.size.toUInt32⟩ .arg) q (d.start.fills [s]) a r e) :
    Runs (argument expr) p d a r e :=
  (runs_at _).bind ((runs_atAny _).bind (runs_nestingExhausted.bind (.ite_pos h
    (runs_start.bind ((hs _).discard.bind hclose)))))

theorem runs_argument_none (h : p.atArgument = false) (d : Draft) :
    Runs (argument expr) p d (.done ()) p d := by
  exact (runs_at _).bind ((runs_atAny _).bind (runs_nestingExhausted.bind
    (.ite_neg (Bool.not_eq_true _ ▸ h) (.pure _))))

/-- The loop over the arguments. -/
theorem carries_args
    (hexpr : ∀ p : Reader, p.Shallow → floor ≤ p.nesting.depth → Fulfils expr .expr p)
    (bound : List Token) (hp : p.Shallow) (hfloor : floor ≤ p.nesting.depth)
    (hbound : p.rest.length ≤ bound.length) :
    Carries (repeatAlong (fun _ => argument expr) bound ()) .args p := by
  induction bound generalizing p with
  | nil =>
    have hargs : p.atArgument = false := by
      rw [Reader.atArgument, Reader.next_eq_eof (Nat.le_zero.mp hbound)]
      simp [exprFirst]
    exact ⟨[], p, .argsDone hargs, fun d =>
      d.fills_nil.symm ▸ runs_repeatAlong_done (runs_argument_none hargs d) _⟩
  | cons u bound ih =>
    cases hargs : p.atArgument with
    | false =>
      exact ⟨[], p, .argsDone hargs, fun d =>
        d.fills_nil.symm ▸ runs_repeatAlong_done (runs_argument_none hargs d) _⟩
    | true =>
      obtain ⟨s, q, hreads, hruns⟩ := hexpr p hp hfloor
      by_cases hcomma : q.next = .comma
      · obtain ⟨t, rest, hq, ht⟩ := Reader.exists_of_next_eq hcomma (by decide)
        rw [hq] at hreads hruns
        have hle := hreads.length_le
        have hdepth := hreads.depth_eq
        simp only [List.length_cons] at hle hbound
        obtain ⟨more, r, hmore, hruns'⟩ := @ih ⟨rest, q.nesting⟩ (hreads.shallow hp)
          (by simp only at hdepth ⊢; omega) (by simp only; omega)
        refine ⟨_, r, .argMore hargs hreads ht hmore, fun d => ?_⟩
        have hloop := hruns' (d.fill (.node .arg false [s, .token t]))
        rw [Draft.fill_fills] at hloop
        exact runs_repeatAlong_yield
          (runs_argument hargs hruns (runs_closeMember_comma ht)) hloop
      · exact ⟨_, q, .argLast hargs hreads hcomma, fun d =>
          runs_repeatAlong_done (runs_argument hargs hruns (runs_closeMember_last hcomma)) _⟩

/-- The parentheses of a call. -/
theorem carries_argClause
    (hexpr : ∀ p : Reader, p.Shallow → floor ≤ p.nesting.depth → Fulfils expr .expr p)
    (hp : p.Shallow) (hfloor : floor ≤ p.nesting.depth) (h : p.next = .lParen) :
    Carries (argClause expr) .argClause p := by
  refine carries_insist h (carries_node (.cons (carries_advance h (by decide)) fun _ q hq => ?_))
  refine .list ?_ fun _ r hr => .cons (carries_expect (by decide)) fun _ _ _ => .nil_discard
  obtain ⟨slots, r, hreads, hruns⟩ := carries_args hexpr q.rest (hq.shallow hp)
    (by rw [hq.depth_eq]; exact hfloor) (Nat.le_refl _)
  exact ⟨slots, r, hreads, fun d => runs_repeatTokens (hruns d)⟩

/-- What an operand starts with. -/
theorem fulfils_primaryExpr
    (hexpr : ∀ p : Reader, p.Shallow → floor ≤ p.nesting.depth → Fulfils expr .expr p)
    (hp : p.Shallow) (hfloor : floor ≤ p.nesting.depth) :
    Fulfils (primaryExpr expr) .primary p := by
  refine fulfils_peek ?_
  split
  · next h => exact .there (by simp [h]) (fulfils_tokenNode h (by decide))
  · next h => exact .other (by simp [h]) (.there (by simp [h]) (fulfils_tokenNode h (by decide)))
  · next h =>
    refine .other (by simp [h]) (.other (by simp [h]) (.there (by simp [h]) (fulfils_node ?_)))
    refine .cons (carries_advance h (by decide)) fun _ q hq => ?_
    refine .cons (hexpr q (hq.shallow hp) (hq.depth_eq ▸ hfloor)).discard fun _ _ _ => ?_
    exact .cons (carries_expect (by decide)) fun _ _ _ => .nil
  · next hnumber hname hparen =>
    refine .other (by simpa using hnumber) (.other (by simpa using hname) (.other ?_ ?_))
    · simpa using hparen
    · exact ⟨_, p, .missing, fun _ => runs_missing _⟩

section Calls

variable {callee : Sketch} {k : Nat} {d : Draft} {c : Completed}

theorem runs_callLink_none (h : p.next ≠ .lParen) :
    Runs (callLink expr (c, k)) p d (.done (c, k)) p d :=
  (runs_at _).bind (.ite_neg (by simp [h]) (.pure _))

theorem runs_callLink_refused (h : p.next = .lParen) (henter : p.enter.1 = false) :
    Runs (callLink expr (c, k)) p d (.done (c, k)) p.enter.2 d :=
  (runs_at _).bind (.ite_pos (by simp [h])
    (runs_enterNesting.bind (.ite_neg (by simp [henter]) (.pure _))))

theorem runs_callLink {clause : Sketch} {q : Reader} (h : p.next = .lParen)
    (henter : p.enter.1 = true) (hcallee : callee.isElement)
    (hclause : ∀ d : Draft, Runs (argClause expr) p.enter.2 d () q (d.fill clause)) :
    Runs (callLink expr (d.mark callee, k)) p (d.fill callee)
      (.yield (d.mark (.node .callExpr true [callee, clause]), k + 1)) q
      (d.fill (.node .callExpr true [callee, clause])) :=
  (runs_at _).bind (.ite_pos (by simp [h]) (runs_enterNesting.bind (.ite_pos henter
    ((runs_precede hcallee).bind ((hclause _).bind (runs_complete_around.bind (.pure _)))))))

/-- The loop over the calls after a callee. -/
theorem runs_calls
    (hexpr : ∀ p : Reader, p.Shallow → floor ≤ p.nesting.depth → Fulfils expr .expr p)
    (bound : List Token) (hp : p.Shallow) (hfloor : floor ≤ p.nesting.depth)
    (hk : k ≤ p.nesting.depth) (hbound : p.rest.length ≤ bound.length)
    (hcallee : callee.isElement) :
    ∃ s q j, j ≤ q.nesting.depth ∧ Reads (.calls callee k) p [s] (q.leave j) ∧ ∀ d : Draft,
      Runs (repeatAlong (callLink expr) bound (d.mark callee, k)) p (d.fill callee)
        (d.mark s, j) q (d.fill s) := by
  induction bound generalizing p callee k with
  | nil =>
    have h : p.next ≠ .lParen := by
      rw [Reader.next_eq_eof (Nat.le_zero.mp hbound)]
      decide
    exact ⟨callee, p, k, hk, .callsDone h, fun _ => runs_repeatAlong_done (runs_callLink_none h) _⟩
  | cons u bound ih =>
    by_cases h : p.next = .lParen
    · cases henter : p.enter.1 with
      | false =>
        have hdepth := Nesting.depth_enter_of_refused henter
        refine ⟨callee, p.enter.2, k, ?_, .callRefused h henter, fun _ =>
          runs_repeatAlong_done (runs_callLink_refused h henter) _⟩
        exact hdepth ▸ hk
      | true =>
        have hdepth : p.enter.2.nesting.depth = p.nesting.depth + 1 :=
          Nesting.depth_enter_of_granted henter
        obtain ⟨slots, q, hreads, hruns⟩ := carries_argClause hexpr hp.enter
          (by rw [hdepth]; omega) (show p.enter.2.next = .lParen from h)
        have hlt := hreads.length_lt_of_token
        have hq := hreads.depth_eq
        obtain ⟨clause, rfl, -⟩ := @Reads.yields _ _ _ _ (fun _ => True) hreads fun _ => trivial
        simp only [List.length_cons, Reader.rest_enter] at hbound hlt
        obtain ⟨s, r, j, hj, hcalls, hloop⟩ := @ih q (.node .callExpr true [callee, clause]) (k + 1)
          (hreads.shallow hp.enter) (by omega) (by omega) (by omega) rfl
        exact ⟨s, r, j, hj, .call h henter hreads hcalls, fun d =>
          runs_repeatAlong_yield (runs_callLink h henter hcallee hruns) (hloop d)⟩
    · exact ⟨callee, p, k, hk, .callsDone h, fun _ =>
        runs_repeatAlong_done (runs_callLink_none h) _⟩

end Calls

/-- A primary expression and the calls after it. -/
theorem exists_runs_postfixExpr
    (hexpr : ∀ p : Reader, p.Shallow → floor ≤ p.nesting.depth → Fulfils expr .expr p)
    (hp : p.Shallow) (hfloor : floor ≤ p.nesting.depth) :
    ∃ callee s q r, Reads Phrase.primary p [callee] q ∧ Reads (.calls callee 0) q [s] r ∧
      ∀ d : Draft, Runs (postfixExpr expr) p d (d.mark s) r (d.fill s) := by
  obtain ⟨callee, q, hreads, hruns⟩ := fulfils_primaryExpr hexpr hp hfloor
  obtain ⟨s, hs, hcallee⟩ := hreads.yields Phrase.yields_primary
  obtain rfl := List.singleton_inj.mp hs
  obtain ⟨s, r, j, hj, hcalls, hloop⟩ := @runs_calls _ _ q callee 0 hexpr q.rest (hreads.shallow hp)
    (by rw [hreads.depth_eq]; exact hfloor) (Nat.zero_le _) (Nat.le_refl _)
    (Sketch.isElement_of_isExpr hcallee)
  refine ⟨callee, s, q, r.leave j, hreads, hcalls, fun d => ?_⟩
  exact (hruns d).bind ((runs_repeatTokens (hloop d)).bind ((runs_leaveNesting hj).bind (.pure _)))

/-- An operand with the signs before it. -/
theorem fulfils_prefixExpr
    (hexpr : ∀ p : Reader, p.Shallow → floor ≤ p.nesting.depth → Fulfils expr .expr p)
    (levels : Nat) (hp : p.Shallow) (hfloor : floor ≤ p.nesting.depth + 1)
    (hlevels : maxNesting + 1 ≤ levels + p.nesting.depth) :
    Fulfils (prefixExpr expr levels) .prefixed p := by
  induction levels generalizing p with
  | zero =>
    simp only [Reader.Shallow] at hp
    omega
  | succ levels ih =>
    cases henter : p.enter.1 with
    | false =>
      exact ⟨_, _, .tooDeep henter, fun _ => runs_enterNesting.bind
        (.ite_neg (by simp [henter]) (runs_missing _))⟩
    | true =>
      have hdepth : p.enter.2.nesting.depth = p.nesting.depth + 1 :=
        Nesting.depth_enter_of_granted henter
      by_cases hminus : p.next = .minus
      · obtain ⟨t, rest, hpt, ht⟩ := Reader.exists_of_next_eq hminus (by decide)
        obtain ⟨s, q, hreads, hruns⟩ := @ih ⟨rest, p.enter.2.nesting⟩ ((hpt ▸ hp).enter)
          (by simp only; omega) (by simp only; omega)
        have hq := hreads.depth_eq
        rw [hpt] at henter ⊢
        refine ⟨_, _, .negated henter ht hreads, fun d => ?_⟩
        refine runs_enterNesting.bind (.ite_pos henter
          ((runs_at _).bind (.ite_pos (by simp [ht]) ?_)))
        refine runs_start.bind (runs_advance.bind ((hruns _).discard.bind (runs_complete.bind ?_)))
        exact (runs_leaveNesting (by simp only at hq; omega)).bind (.pure _)
      · obtain ⟨callee, s, q, r, hcallee, hcalls, hruns⟩ :=
          exists_runs_postfixExpr hexpr hp.enter (by omega)
        have hq := hcallee.depth_eq
        have hr := hcalls.depth_add_entered (Nat.zero_le _)
        simp only [Goal.entered] at hr
        refine ⟨s, _, .operand henter hminus hcallee hcalls, fun d => ?_⟩
        refine runs_enterNesting.bind (.ite_pos henter ((runs_at _).bind (.ite_neg ?_ ?_)))
        · simpa using hminus
        · exact (hruns d).bind ((runs_leaveNesting (by omega)).bind (.pure _))

section Links

variable {operand : Nat → Grammar Completed} {m k power : Nat} {lhs : Sketch} {d : Draft}
  {c : Completed}

theorem runs_operatorLink_none (h : ∀ power, bindingPower? p.next = some power → power ≤ m) :
    Runs (operatorLink operand m (c, k)) p d (.done (c, k)) p d := by
  refine runs_peek.bind ?_
  split
  · next power hpower => exact .ite_neg (Nat.not_lt.mpr (h power hpower)) (.pure _)
  · exact .pure _

theorem runs_operatorLink_refused (hpower : bindingPower? p.next = some power) (hm : m < power)
    (henter : p.enter.1 = false) :
    Runs (operatorLink operand m (c, k)) p d (.done (c, k)) p.enter.2 d := by
  refine runs_peek.bind ?_
  rw [hpower]
  exact .ite_pos hm (runs_enterNesting.bind (.ite_neg (by simp [henter]) (.pure _)))

theorem runs_operatorLink {rhs : Sketch} {t : Token} {rest : List Token} {n : Nesting} {q : Reader}
    (hpower : bindingPower? t.kind = some power) (hm : m < power) (henter : n.enter.1 = true)
    (hlhs : lhs.isElement)
    (hrhs : ∀ d : Draft, Runs (operand power) ⟨rest, n.enter.2⟩ d (d.mark rhs) q (d.fill rhs)) :
    Runs (operatorLink operand m (d.mark lhs, k)) ⟨t :: rest, n⟩ (d.fill lhs)
      (.yield (d.mark (.node .binaryExpr true [lhs, .token t, rhs]), k + 1)) q
      (d.fill (.node .binaryExpr true [lhs, .token t, rhs])) := by
  refine runs_peek.bind ?_
  rw [Reader.next_cons, hpower]
  exact .ite_pos hm (runs_enterNesting.bind (.ite_pos henter ((runs_precede hlhs).bind
    (runs_advance.bind ((hrhs _).discard.bind (runs_complete_around.bind (.pure _)))))))

/-- A token with a binding power is there to be consumed. -/
theorem exists_of_bindingPower (h : bindingPower? p.next = some power) :
    ∃ t rest, p = ⟨t :: rest, p.nesting⟩ ∧ bindingPower? t.kind = some power := by
  have hne : p.next ≠ .eof := fun he => by
    rw [he] at h
    cases h
  obtain ⟨t, rest, hp, ht⟩ := Reader.exists_of_next_eq rfl hne
  exact ⟨t, rest, hp, ht ▸ h⟩

/-- The loop over the operators after an operand. -/
theorem runs_links
    (hoperand : ∀ (power : Nat) (p : Reader), p.Shallow → floor ≤ p.nesting.depth →
      Fulfils (operand power) (.operators power) p)
    (bound : List Token) (hp : p.Shallow) (hfloor : floor ≤ p.nesting.depth + 1)
    (hk : k ≤ p.nesting.depth) (hbound : p.rest.length ≤ bound.length) (hlhs : lhs.isElement) :
    ∃ s q j, j ≤ q.nesting.depth ∧ Reads (.links m lhs k) p [s] (q.leave j) ∧ ∀ d : Draft,
      Runs (repeatAlong (operatorLink operand m) bound (d.mark lhs, k)) p (d.fill lhs)
        (d.mark s, j) q (d.fill s) := by
  -- each round reads an operator, so the loop ends before the bound does
  induction bound generalizing p lhs k with
  | nil =>
    have h : ∀ power, bindingPower? p.next = some power → power ≤ m := by
      rw [Reader.next_eq_eof (Nat.le_zero.mp hbound)]
      rintro _ ⟨⟩
    exact ⟨lhs, p, k, hk, .linksDone h, fun _ =>
      runs_repeatAlong_done (runs_operatorLink_none h) _⟩
  | cons u bound ih =>
    by_cases h : ∀ power, bindingPower? p.next = some power → power ≤ m
    · exact ⟨lhs, p, k, hk, .linksDone h, fun _ =>
        runs_repeatAlong_done (runs_operatorLink_none h) _⟩
    · obtain ⟨power, hpower, hm⟩ : ∃ power, bindingPower? p.next = some power ∧ m < power := by
        simpa using h
      cases henter : p.enter.1 with
      | false =>
        have hdepth := Nesting.depth_enter_of_refused henter
        exact ⟨lhs, p.enter.2, k, hdepth ▸ hk, .linkRefused hpower hm henter, fun _ =>
          runs_repeatAlong_done (runs_operatorLink_refused hpower hm henter) _⟩
      | true =>
        have hdepth := Nesting.depth_enter_of_granted henter
        obtain ⟨t, rest, hpt, ht⟩ := exists_of_bindingPower hpower
        obtain ⟨rhs, q, hreads, hruns⟩ := hoperand power ⟨rest, p.nesting.enter.2⟩
          ((hpt ▸ hp).enter) (by simp only; omega)
        have hle := hreads.length_le
        have hq := hreads.depth_eq
        have hlen := congrArg (fun p : Reader => p.rest.length) hpt
        simp only [List.length_cons] at hbound hle hlen hq
        obtain ⟨s, r, j, hj, hlinks, hloop⟩ :=
          @ih q (k + 1) (.node .binaryExpr true [lhs, .token t, rhs])
            (hreads.shallow (hpt ▸ hp).enter) (by omega) (by omega) (by omega) rfl
        rw [hpt]
        exact ⟨s, r, j, hj, .link ht hm henter hreads hlinks, fun d =>
          runs_repeatAlong_yield (runs_operatorLink ht hm henter hlhs hruns) (hloop d)⟩

end Links

/-- Operands joined by operators. -/
theorem fulfils_operatorExpr (levels m : Nat) (hp : p.Shallow)
    (hlevels : maxNesting + 1 ≤ levels + p.nesting.depth) :
    Fulfils (operatorExpr levels m) (.operators m) p := by
  induction levels generalizing p m with
  | zero =>
    simp only [Reader.Shallow] at hp
    omega
  | succ levels ih =>
    have hoperand : ∀ (power : Nat) (p : Reader),
        p.Shallow → maxNesting + 1 - levels ≤ p.nesting.depth →
        Fulfils (operatorExpr levels power) (.operators power) p :=
      fun power p hp hfloor => ih power hp (by omega)
    obtain ⟨first, q, hfirst, hruns⟩ :=
      fulfils_prefixExpr (hoperand 0) (levels + 1) hp (by omega) hlevels
    obtain ⟨s, r, j, hj, hlinks, hloop⟩ := @runs_links _ q _ m 0 first hoperand q.rest
      (hfirst.shallow hp) (by rw [hfirst.depth_eq]; omega) (Nat.zero_le _) (Nat.le_refl _)
      (Sketch.isElement_of_isExpr hfirst.isExpr_of_prefixed)
    exact ⟨s, r.leave j, .operators hfirst hlinks, fun d => (hruns d).bind
      ((runs_repeatTokens (hloop d)).bind ((runs_leaveNesting hj).bind (.pure _)))⟩

/-- An expression, wherever it stands. -/
theorem fulfils_expr (hp : p.Shallow) : Fulfils Grammar.expr .expr p :=
  fulfils_operatorExpr (maxNesting + 1) 0 hp (Nat.le_add_right _ _)

end Expressions

end Grammar

end Verbatim
