import Verbatim.Proofs.EventCount

/-!
# Nesting levels

Whatever parser an expression is read by, if its nesting is within the limit: the levels that are
entered are left again, the limit is never passed, and the note that it was met is never taken back.
Levels are not left that were not entered, the recursion does not run out of levels and no loop out
of tokens. Positions of events have 32 bits, and a parser with too many events can fail on that; it
fails on nothing else.
-/

namespace Verbatim

namespace Nesting

/-- What may happen to the nesting where nothing recovers from the limit. Levels are granted within
the limit only, refusals are counted, and the note that the limit was met is there if it was there
before or a level was refused since, and only then. -/
structure Noted (n k : Nesting) : Prop where
  deepest_le : k.deepest ≤ max n.deepest maxNesting
  refusals_le : n.refusals ≤ k.refusals
  exhausted_iff : k.exhausted = true ↔ n.exhausted = true ∨ n.refusals < k.refusals

/-- What may happen to the nesting in an expression: moreover, all levels that are entered are
left. -/
structure Kept (n k : Nesting) : Prop extends Noted n k where
  depth_eq : k.depth = n.depth

variable {n k l : Nesting}

theorem Noted.refl (n : Nesting) : n.Noted n :=
  ⟨Nat.le_max_left _ _, Nat.le_refl _, by simp⟩

theorem deepest_le_trans (h : k.deepest ≤ max n.deepest maxNesting)
    (h' : l.deepest ≤ max k.deepest maxNesting) : l.deepest ≤ max n.deepest maxNesting := by
  omega

/-- What is noted on the way is noted at the end. -/
theorem Noted.trans (h : n.Noted k) (h' : k.Noted l) : n.Noted l where
  deepest_le := deepest_le_trans h.deepest_le h'.deepest_le
  refusals_le := Nat.le_trans h.refusals_le h'.refusals_le
  exhausted_iff := by
    have hle := h.refusals_le
    have hle' := h'.refusals_le
    rw [h'.exhausted_iff, h.exhausted_iff, or_assoc]
    exact or_congr_right (by omega)

/-- The depth does not count for what is noted. -/
theorem Noted.leave (h : n.Noted k) (depth : Nat) : n.Noted { k with depth } :=
  ⟨h.deepest_le, h.refusals_le, h.exhausted_iff⟩

/-- Going down a level does not lead below the limit. -/
theorem deepest_enter_le (n : Nesting) : n.enter.2.deepest ≤ max n.deepest maxNesting := by
  unfold enter
  split
  · exact Nat.le_max_left _ _
  · split
    · exact Nat.le_max_left _ _
    · simp only
      omega

/-- Going down a level is noted. -/
theorem noted_enter (n : Nesting) : n.Noted n.enter.2 where
  deepest_le := n.deepest_enter_le
  refusals_le := by
    cases h : n.enter.1 with
    | true => exact Nat.le_of_eq (enter_of_granted h).2.symm
    | false => exact refusals_of_refused h ▸ Nat.le_succ _
  exhausted_iff := by
    cases h : n.enter.1 with
    | true =>
      have hn := (enter_eq_true_iff.mp h).1
      obtain ⟨hexhausted, hrefusals⟩ := enter_of_granted h
      simp [hn, hexhausted, hrefusals]
    | false => simp [exhausted_of_refused h, refusals_of_refused h]

end Nesting

namespace Phrase

mutual
/-- Whether nothing in a phrase recovers from the nesting limit. -/
def neverRecovers : Phrase → Bool
  | recovery _ | stmts | items => false
  | either _ there other => there.neverRecovers && other.neverRecovers
  | seq parts | node _ parts => neverRecover parts
  | token _ | missing _ | absent | stray _ | operators _ | prefixed | args | params => true
/-- Whether nothing in several phrases recovers from the nesting limit. -/
def neverRecover : List Phrase → Bool
  | [] => true
  | x :: rest => x.neverRecovers && neverRecover rest
end

end Phrase

/-- As `Phrase.neverRecovers`, also for what may follow an operand or a callee. -/
def Goal.neverRecovers : Goal → Bool
  | phrase x => x.neverRecovers
  | links .. | calls .. => true

namespace Reads

variable {goal : Goal} {p q : Reader} {slots : List Sketch}

/-- No level past the limit is granted. -/
theorem deepest_le (h : Reads goal p slots q) :
    q.nesting.deepest ≤ max p.nesting.deepest maxNesting := by
  induction h with
  | token | missing | absent | nil | stray | calm | linksDone | callsDone | argsDone | paramsDone
  | stmtsDone | itemsDone => exact Nat.le_max_left _ _
  | linkRefused | tooDeep | callRefused => exact Nesting.deepest_enter_le _
  | there _ _ ih | other _ _ ih | node _ ih | rescue _ _ ih | argLast _ _ _ ih
  | paramLast _ _ ih => exact ih
  | cons _ _ ihx ihy | operators _ _ ihx ihy | argMore _ _ _ _ ihx ihy | paramMore _ _ _ ihx ihy
  | stmtsMore _ _ _ ihx ihy | itemsMore _ _ _ ihx ihy => exact Nesting.deepest_le_trans ihx ihy
  | negated _ _ _ ih => exact Nesting.deepest_le_trans (Nesting.deepest_enter_le _) ih
  | link _ _ _ _ _ ihx ihy | operand _ _ _ _ ihx ihy | call _ _ _ _ ihx ihy =>
    exact Nesting.deepest_le_trans (Nesting.deepest_enter_le _) (Nesting.deepest_le_trans ihx ihy)

/-- What never recovers from the limit notes every refusal and takes no note back. -/
theorem noted (h : Reads goal p slots q) (hgoal : goal.neverRecovers = true) :
    p.nesting.Noted q.nesting := by
  induction h with
  | token | missing | absent | nil | stray | argsDone | paramsDone => exact .refl _
  | linksDone | callsDone => exact (Nesting.Noted.refl _).leave _
  | linkRefused | callRefused => exact (Nesting.noted_enter _).leave _
  | tooDeep => exact Nesting.noted_enter _
  | there _ _ ih => exact ih (Bool.and_eq_true_iff.mp hgoal).1
  | other _ _ ih => exact ih (Bool.and_eq_true_iff.mp hgoal).2
  | node _ ih => exact ih hgoal
  | cons _ _ ihx ihxs =>
    obtain ⟨hx, hxs⟩ := Bool.and_eq_true_iff.mp hgoal
    exact (ihx hx).trans (ihxs hxs)
  | operators _ _ ihx ihy | argMore _ _ _ _ ihx ihy | paramMore _ _ _ ihx ihy =>
    exact (ihx rfl).trans (ihy rfl)
  | argLast _ _ _ ih | paramLast _ _ ih => exact ih rfl
  | link _ _ _ _ _ ihx ihy => exact ((Nesting.noted_enter _).trans (ihx rfl)).trans (ihy rfl)
  | negated _ _ _ ih => exact ((Nesting.noted_enter _).trans (ih rfl)).leave _
  | operand _ _ _ _ ihx ihy =>
    exact (((Nesting.noted_enter _).trans (ihx rfl)).trans (ihy rfl)).leave _
  | call _ _ _ _ ihx ihy => exact ((Nesting.noted_enter _).trans (ihx rfl)).trans (ihy rfl)
  | calm | rescue | stmtsDone | stmtsMore | itemsDone | itemsMore => cases hgoal

/-- What never recovers from the limit keeps the nesting. -/
theorem kept (h : Reads goal p slots q) (hgoal : goal.neverRecovers = true)
    (hentered : goal.entered = 0) : p.nesting.Kept q.nesting where
  toNoted := h.noted hgoal
  depth_eq := by
    have hdepth := h.depth_add_entered (hentered ▸ Nat.zero_le _)
    rwa [hentered, Nat.add_zero] at hdepth

end Reads

namespace Grammar

variable {α : Type}

/-- How a piece of the grammar ends on a parser: it returns, and its answer and the parser it leaves
are as they should be. It can only fail on a misplaced marker, and only if the events, with twelve
more for each token that is left and for the end of the text, are too many for 32 bits. -/
def Returns (g : Grammar α) (x : Parser) (post : α → Parser → Prop) : Prop :=
  (∃ a y, g x = .ok (a, y) ∧ post a y) ∨
    (∃ fault, g x = .error fault ∧ fault.isMisplaced = true) ∧
      UInt32.size < x.events.size + 12 * (x.rest.length + 1)

/-- What is known of a return holds of the one that was made. -/
theorem Returns.of_eq_ok {g : Grammar α} {x y : Parser} {post : α → Parser → Prop} {a : α}
    (h : Returns g x post) (hg : g x = .ok (a, y)) : post a y := by
  rcases h with ⟨b, z, hz, hpost⟩ | ⟨⟨fault, hfault, -⟩, -⟩
  · cases hg.symm.trans hz
    exact hpost
  · cases hg.symm.trans hfault

/-- A piece of the grammar leaves the levels that it enters, keeps to the limit, takes no note of it
back and puts no token back. -/
def Balanced (g : Grammar α) (x : Parser) : Prop :=
  Returns g x fun _ y => x.nesting.Kept y.nesting ∧ y.rest <:+ x.rest

section Balance

variable {g : Grammar α} {x : Parser} {q : Reader} {slots : List Sketch} {answer : Draft → α}

/-- What a piece does to drafts it does to every parser, if its events are not more than the tokens
that are left allow. -/
theorem returns_of_runs {post : α → Parser → Prop}
    (hruns : ∀ d : Draft, Runs g x.reader d (answer d) q (d.fills slots))
    (hcount : Sketch.eventCountOf slots < 12 * (x.rest.length + 1))
    (hpost : ∀ y : Parser, y.reader = q →
      post (answer { base := x.events.toList }) y) : Returns g x post := by
  rcases (hruns _).run x rfl x.shows_base with ⟨y, hy, hq, -⟩ | ⟨hfault, hnot⟩
  · exact .inl ⟨_, y, hy, hpost y hq⟩
  · refine .inr ⟨hfault, Nat.lt_of_not_le fun hle => hnot (Event.fits_of_length_le ?_)⟩
    rw [Draft.events_fills, List.length_append, Sketch.length_eventsOf]
    simp only [Draft.events, Draft.openedEvents, Sketch.eventsOf, List.append_nil,
      Array.length_toList]
    omega

/-- A run that keeps the nesting and writes few events is balanced. -/
theorem balanced_of_runs
    (hruns : ∀ d : Draft, Runs g x.reader d (answer d) q (d.fills slots))
    (hcount : Sketch.eventCountOf slots < 12 * (x.rest.length + 1))
    (hkept : x.nesting.Kept q.nesting) (hrest : q.rest <:+ x.rest) : Balanced g x := by
  refine returns_of_runs hruns hcount fun y hy => ?_
  subst hy
  exact ⟨hkept, hrest⟩

/-- A phrase that writes less than an event more than its tokens allow, and one for the end of the
text. -/
theorem balanced_of_reads {phrase : Phrase} (hreads : Reads phrase x.reader slots q)
    (hruns : ∀ d : Draft, Runs g x.reader d (answer d) q (d.fills slots))
    (hphrase : phrase.neverRecovers = true) (hslack : phrase.slack < 12) : Balanced g x := by
  refine balanced_of_runs hruns ?_ (hreads.kept hphrase rfl) hreads.rest_suffix
  have hcount := hreads.eventCountOf_le.1
  simp only [Goal.held, Goal.slack, Sketch.eventCountOf, Parser.reader] at hcount
  omega

/-- What fulfils a phrase that never recovers is balanced. -/
theorem Fulfils.balanced {g : Grammar Completed} {phrase : Phrase}
    (h : Fulfils g phrase x.reader) (hphrase : phrase.neverRecovers = true)
    (hslack : phrase.slack < 12) : Balanced g x := by
  obtain ⟨s, q, hreads, hruns⟩ := h
  exact balanced_of_reads hreads hruns hphrase hslack

/-- What carries out a phrase that never recovers is balanced. -/
theorem Carries.balanced {g : Grammar Unit} {phrase : Phrase} (h : Carries g phrase x.reader)
    (hphrase : phrase.neverRecovers = true) (hslack : phrase.slack < 12) : Balanced g x := by
  obtain ⟨slots, q, hreads, hruns⟩ := h
  exact balanced_of_reads hreads hruns hphrase hslack

end Balance

section Expressions

variable {x : Parser} {levels : Nat}

/-- Where the levels last, an expression inside another is read as it should be. -/
theorem fulfils_inner (levels : Nat) (p : Reader) (hp : p.Shallow)
    (hfloor : maxNesting + 1 - levels ≤ p.nesting.depth) :
    Fulfils (operatorExpr levels 0) .expr p :=
  fulfils_operatorExpr levels 0 hp (by omega)

/-- Operators are balanced if there are levels enough. -/
theorem balanced_operatorExpr (m : Nat) (hx : x.nesting.depth ≤ maxNesting)
    (hlevels : maxNesting + 1 ≤ levels + x.nesting.depth) : Balanced (operatorExpr levels m) x :=
  (@fulfils_operatorExpr x.reader levels m hx hlevels).balanced rfl (by simp [Phrase.slack])

/-- Prefixes are balanced if there are levels enough. -/
theorem balanced_prefixExpr {inner : Nat} (hx : x.nesting.depth ≤ maxNesting)
    (hinner : maxNesting ≤ inner + x.nesting.depth)
    (hlevels : maxNesting + 1 ≤ levels + x.nesting.depth) :
    Balanced (prefixExpr (operatorExpr inner 0) levels) x :=
  (@fulfils_prefixExpr _ _ x.reader (fulfils_inner inner) levels hx
    (by simp only [Parser.reader]; omega) hlevels).balanced rfl (by simp [Phrase.slack])

/-- Operands are balanced if there are levels enough. -/
theorem balanced_primaryExpr (hx : x.nesting.depth ≤ maxNesting)
    (hlevels : maxNesting + 1 ≤ levels + x.nesting.depth) :
    Balanced (primaryExpr (operatorExpr levels 0)) x :=
  (@fulfils_primaryExpr _ _ x.reader (fulfils_inner levels) hx
    (by simp only [Parser.reader]; omega)).balanced rfl (by decide)

/-- Arguments are balanced if there are levels enough. -/
theorem balanced_argClause (hx : x.nesting.depth ≤ maxNesting)
    (hlevels : maxNesting + 1 ≤ levels + x.nesting.depth) (h : x.nextKind = .lParen) :
    Balanced (argClause (operatorExpr levels 0)) x :=
  (@carries_argClause _ _ x.reader (fulfils_inner levels) hx
    (by simp only [Parser.reader]; omega) h).balanced rfl (by decide)

/-- Calls are balanced if there are levels enough. -/
theorem balanced_postfixExpr (hx : x.nesting.depth ≤ maxNesting)
    (hlevels : maxNesting + 1 ≤ levels + x.nesting.depth) :
    Balanced (postfixExpr (operatorExpr levels 0)) x := by
  obtain ⟨callee, s, q, r, hcallee, hcalls, hruns⟩ := @exists_runs_postfixExpr _ _ x.reader
    (fulfils_inner levels) hx (by simp only [Parser.reader]; omega)
  have hkept := hcallee.kept rfl rfl
  have hkept' := hcalls.kept rfl rfl
  refine balanced_of_runs hruns ?_ ⟨hkept.toNoted.trans hkept'.toNoted,
    hkept'.depth_eq.trans hkept.depth_eq⟩ (hcalls.rest_suffix.trans hcallee.rest_suffix)
  have hslack : Phrase.primary.slack = 1 := by decide
  have hcount := hcallee.eventCountOf_le.1
  have hcount' := hcalls.eventCountOf_le.1
  simp only [Goal.held, Goal.slack, hslack, Sketch.eventCountOf, Parser.reader] at hcount hcount' ⊢
  omega

end Expressions

end Grammar

end Verbatim
