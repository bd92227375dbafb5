import Verbatim.Proofs.Levels
import Verbatim.Proofs.Lexing

/-!
# Rounds of the loops

A loop of the grammar goes round as long as its step says so. A step that consumes no token either
ends the loop or was not a round at all: it has read nothing and written nothing. The loops over the
items of a file and over the statements of a block moreover start each round outside all nesting
levels, with no note that the limit was met. Hence a parse comes to its end on every text.
-/

namespace Verbatim

/-- Consuming a token shortens what is left, unless that was nothing. -/
theorem Parser.length_consume_lt (x : Parser) (h : x.nextKind ≠ .eof) :
    x.consume.rest.length < x.rest.length := by
  cases hrest : x.rest with
  | nil => exact absurd (by rw [Parser.nextKind, hrest]) h
  | cons t rest => simp [Parser.consume, hrest]

/-- Consuming a token leaves the nesting as it is. -/
theorem Parser.nesting_consume (x : Parser) : x.consume.nesting = x.nesting := by
  unfold consume
  split <;> rfl

namespace Grammar

variable {α : Type}

/-- The rounds of a loop that starts with `a` on the parser `x`: each takes up what the one before
it left. -/
inductive Rounds (step : α → Grammar (ForInStep α)) (a : α) (x : Parser) : α → Parser → Prop
  | first : Rounds step a x a x
  | next {b c : α} {y z : Parser} (h : Rounds step a x b y)
    (hstep : step b y = .ok (.yield c, z)) : Rounds step a x c z

/-- A round that goes on may be put before other rounds. -/
theorem Rounds.cons {step : α → Grammar (ForInStep α)} {a b c : α} {x y z : Parser}
    (hstep : step a x = .ok (.yield b, y)) (h : Rounds step b y c z) : Rounds step a x c z := by
  induction h with
  | first => exact .next .first hstep
  | next _ hnext ih => exact .next ih hnext

/-- A loop that returns has come to a last round, which ends it. -/
theorem exists_rounds_of_repeatAlong {step : α → Grammar (ForInStep α)} {bound : List Token}
    {a b : α} {x z : Parser} (h : repeatAlong step bound a x = .ok (b, z)) :
    ∃ c y, Rounds step a x c y ∧ step c y = .ok (.done b, z) := by
  induction bound generalizing a x with
  | nil =>
    obtain ⟨r, y, hstep, hrest⟩ := exists_of_bind_eq_ok h
    cases r with
    | done c =>
      cases hrest
      exact ⟨a, x, .first, hstep⟩
    | yield c => cases hrest
  | cons t bound ih =>
    obtain ⟨r, y, hstep, hrest⟩ := exists_of_bind_eq_ok h
    cases r with
    | done c =>
      cases hrest
      exact ⟨a, x, .first, hstep⟩
    | yield c =>
      obtain ⟨d, w, hrounds, hdone⟩ := ih hrest
      exact ⟨d, w, .cons hstep hrounds, hdone⟩

/-- A step of a loop consumes a token, or it ends the loop and has done nothing. -/
def Strides (step : α → Grammar (ForInStep α)) (a : α) (x : Parser) : Prop :=
  ∀ r y, step a x = .ok (r, y) →
    y.rest.length < x.rest.length ∨ r = .done a ∧ y.rest = x.rest ∧ y.events = x.events

section Words

variable {x y : Parser}

/-- To look at the next kind changes nothing. -/
theorem peek_eq (x : Parser) : peek x = .ok (x.nextKind, x) :=
  rfl

theorem at_eq (kind : Kind) (x : Parser) : at? kind x = .ok (x.nextKind == kind, x) :=
  rfl

theorem atAny_eq (kinds : KindSet) (x : Parser) :
    atAny kinds x = .ok (kinds.contains x.nextKind, x) :=
  rfl

theorem nestingExhausted_eq (x : Parser) : nestingExhausted x = .ok (x.nesting.exhausted, x) :=
  rfl

theorem advance_eq (x : Parser) : advance x = .ok ((), x.consume) :=
  rfl

theorem enterNesting_eq (x : Parser) :
    enterNesting x = .ok (x.nesting.enter.1, { x with nesting := x.nesting.enter.2 }) :=
  rfl

/-- Completing a marker consumes nothing. -/
theorem rest_of_complete {m : Marker} {kind : Kind} {c : Completed}
    (h : complete m kind x = .ok (c, y)) : y.rest = x.rest := by
  obtain ⟨_, z, hname, h⟩ := exists_of_bind_eq_ok h
  cases h
  unfold change nameStart at hname
  split at hname
  · cases hname
    rfl
  · cases hname

/-- Opening a parent changes neither the tokens nor the nesting. -/
theorem reader_of_precede {c : Completed} {m : Marker} (h : precede c x = .ok (m, y)) :
    y.reader = x.reader := by
  have hopened := (bind_eq_of_ok (start_eq x)).symm.trans h
  split at hopened
  · obtain ⟨_, z, hlink, hanswer⟩ := exists_of_bind_eq_ok hopened
    cases hanswer
    unfold change linkParent at hlink
    split at hlink
    · cases hlink
      rfl
    · cases hlink
      rfl
    · cases hlink
  · cases hopened

/-- Where a level was granted and a node was opened around an element. -/
theorem of_precede_of_granted {c : Completed} {m : Marker} (hgranted : x.nesting.enter.1 = true)
    (h : precede c { x with nesting := x.nesting.enter.2 } = .ok (m, y)) :
    y.rest = x.rest ∧ y.nesting.depth = x.nesting.depth + 1 ∧ y.nesting.depth ≤ maxNesting := by
  have hreader := reader_of_precede h
  have hdepth : y.nesting.depth = x.nesting.depth + 1 := by
    rw [show y.nesting = x.nesting.enter.2 from congrArg Reader.nesting hreader,
      Nesting.depth_enter_of_granted hgranted]
  exact ⟨congrArg Reader.rest hreader, hdepth, hdepth ▸ Nesting.depth_lt_of_granted hgranted⟩

theorem exists_of_discard_eq_ok {g : Grammar α} {u : Unit} (h : discard g x = .ok (u, y)) :
    ∃ a, g x = .ok (a, y) := by
  obtain ⟨a, z, hg, h⟩ := @exists_of_bind_eq_ok _ _ g (fun _ => pure ()) _ _ _ h
  cases h
  exact ⟨a, hg⟩

/-- What is balanced consumes tokens and gives none back. -/
theorem Balanced.length_le {g : Grammar α} {a : α} (h : Balanced g x) (hg : g x = .ok (a, y)) :
    y.rest.length ≤ x.rest.length :=
  (h.of_eq_ok hg).2.length_le

/-- An optional token is consumed if it is there. -/
theorem eatOrAbsent_eq (kind : Kind) (x : Parser) :
    eatOrAbsent kind x = .ok (x.nextKind == kind,
      if x.nextKind == kind then x.consume else x.emit .absent) := by
  have heat : eat kind x =
      .ok (x.nextKind == kind, if x.nextKind == kind then x.consume else x) := by
    refine (bind_eq_of_ok (at_eq kind x)).trans ?_
    cases x.nextKind == kind <;> rfl
  refine (bind_eq_of_ok heat).trans ?_
  cases x.nextKind == kind <;> rfl

/-- What a piece does to drafts it does to the reader of every parser that it returns. -/
theorem reader_of_runs {g : Grammar α} {q : Reader} {slots : List Sketch} {answer : Draft → α}
    {a : α} (hruns : ∀ d : Draft, Runs g x.reader d (answer d) q (d.fills slots))
    (hg : g x = .ok (a, y)) : y.reader = q := by
  rcases (hruns _).run x rfl x.shows_base with ⟨z, hz, hq, -⟩ | ⟨⟨fault, hfault, -⟩, -⟩
  · rw [hg] at hz
    cases hz
    exact hq
  · rw [hg] at hfault
    cases hfault

/-- What carries a phrase out consumes tokens and gives none back. -/
theorem Carries.length_le {g : Grammar Unit} {phrase : Phrase} {u : Unit}
    (h : Carries g phrase x.reader) (hg : g x = .ok (u, y)) : y.rest.length ≤ x.rest.length := by
  obtain ⟨slots, q, hreads, hruns⟩ := h
  rw [← reader_of_runs hruns hg] at hreads
  exact hreads.length_le

/-- A member is closed after its comma, and the loop goes on only if there was one. -/
theorem closeMember_cases {m : Marker} {kind : Kind} {r : ForInStep Unit}
    (h : closeMember m kind x = .ok (r, y)) :
    r = .yield () ∧ y.rest.length < x.rest.length ∨ r = .done () ∧ y.rest = x.rest := by
  rw [closeMember, bind_eq_of_ok (eatOrAbsent_eq .comma x)] at h
  obtain ⟨_, z, hclose, hanswer⟩ := exists_of_bind_eq_ok h
  obtain ⟨c, hclose⟩ := exists_of_discard_eq_ok hclose
  have hrest := rest_of_complete hclose
  cases hcomma : x.nextKind == .comma with
  | true =>
    rw [hcomma] at hanswer hrest
    cases hanswer
    exact .inl ⟨rfl, hrest ▸ x.length_consume_lt (by simp [eq_of_beq hcomma])⟩
  | false =>
    rw [hcomma] at hanswer hrest
    cases hanswer
    exact .inr ⟨rfl, hrest⟩

end Words

section Links

variable {x : Parser} {levels : Nat}

/-- A round of the loop over the operators consumes its operator. -/
theorem strides_operatorLink (m : Nat) (a : Completed × Nat)
    (hlevels : maxNesting ≤ levels + x.nesting.depth) :
    Strides (operatorLink (operatorExpr levels) m) a x := by
  intro r y h
  obtain ⟨lhs, links⟩ := a
  have hround := (bind_eq_of_ok (peek_eq x)).symm.trans h
  cases hpower : bindingPower? x.nextKind with
  | none =>
    simp only [hpower] at hround
    cases hround
    exact .inr ⟨rfl, rfl, rfl⟩
  | some power =>
    simp only [hpower] at hround
    have hne : x.nextKind ≠ .eof := fun heof => by
      rw [heof] at hpower
      cases hpower
    split at hround
    · rw [bind_eq_of_ok (enterNesting_eq x)] at hround
      split at hround
      · next hgranted =>
        obtain ⟨marker, y₁, hprecede, hround⟩ := exists_of_bind_eq_ok hround
        rw [bind_eq_of_ok (advance_eq y₁)] at hround
        obtain ⟨_, y₂, hoperand, hround⟩ := exists_of_bind_eq_ok hround
        obtain ⟨_, hoperand⟩ := exists_of_discard_eq_ok hoperand
        obtain ⟨c, y₃, hcomplete, hround⟩ := exists_of_bind_eq_ok hround
        cases hround
        obtain ⟨hrest, hdepth, hlow⟩ := of_precede_of_granted hgranted hprecede
        rw [← y₁.nesting_consume] at hdepth hlow
        have hlt := y₁.length_consume_lt (by rwa [Parser.nextKind, hrest])
        have hle := (balanced_operatorExpr power hlow (by omega)).length_le hoperand
        rw [hrest] at hlt
        rw [rest_of_complete hcomplete]
        exact .inl (Nat.lt_of_le_of_lt hle hlt)
      · cases hround
        exact .inr ⟨rfl, rfl, rfl⟩
    · cases hround
      exact .inr ⟨rfl, rfl, rfl⟩

/-- The arguments of a call consume a parenthesis at least. -/
theorem length_lt_of_argClause {y : Parser} {u : Unit} (hx : x.nesting.depth ≤ maxNesting)
    (hlevels : maxNesting + 1 ≤ levels + x.nesting.depth) (h : x.nextKind = .lParen)
    (hclause : argClause (operatorExpr levels 0) x = .ok (u, y)) :
    y.rest.length < x.rest.length := by
  obtain ⟨slots, q, hreads, hruns⟩ := @carries_argClause _ _ x.reader (fulfils_inner levels) hx
    (by simp only [Parser.reader]; omega) h
  rw [← reader_of_runs hruns hclause] at hreads
  exact hreads.length_lt_of_token

/-- A round of the loop over the calls consumes the arguments of one. -/
theorem strides_callLink (a : Completed × Nat)
    (hlevels : maxNesting ≤ levels + x.nesting.depth) :
    Strides (callLink (operatorExpr levels 0)) a x := by
  intro r y h
  obtain ⟨callee, calls⟩ := a
  have hround := (bind_eq_of_ok (at_eq .lParen x)).symm.trans h
  split at hround
  · next hparen =>
    rw [bind_eq_of_ok (enterNesting_eq x)] at hround
    split at hround
    · next hgranted =>
      obtain ⟨marker, y₁, hprecede, hround⟩ := exists_of_bind_eq_ok hround
      obtain ⟨_, y₂, hclause, hround⟩ := exists_of_bind_eq_ok hround
      obtain ⟨c, y₃, hcomplete, hround⟩ := exists_of_bind_eq_ok hround
      cases hround
      obtain ⟨hrest, hdepth, hlow⟩ := of_precede_of_granted hgranted hprecede
      have hnext : y₁.nextKind = .lParen := by
        rw [Parser.nextKind, hrest]
        exact eq_of_beq hparen
      have hlt := length_lt_of_argClause hlow (by omega) hnext hclause
      rw [hrest] at hlt
      rw [rest_of_complete hcomplete]
      exact .inl hlt
    · cases hround
      exact .inr ⟨rfl, rfl, rfl⟩
  · cases hround
    exact .inr ⟨rfl, rfl, rfl⟩

/-- A round of the loop over the arguments consumes a comma, or it is the last. -/
theorem length_lt_of_argument {y : Parser} {u : Unit} (hx : x.nesting.depth ≤ maxNesting)
    (hlevels : maxNesting + 1 ≤ levels + x.nesting.depth)
    (h : argument (operatorExpr levels 0) x = .ok (.yield u, y)) :
    y.rest.length < x.rest.length := by
  have hround := (bind_eq_of_ok (at_eq .comma x)).symm.trans h
  rw [bind_eq_of_ok (atAny_eq exprFirst x), bind_eq_of_ok (nestingExhausted_eq x)] at hround
  split at hround
  · rw [bind_eq_of_ok (start_eq x)] at hround
    obtain ⟨_, y₁, hexpr, hclose⟩ := exists_of_bind_eq_ok hround
    obtain ⟨_, hexpr⟩ := exists_of_discard_eq_ok hexpr
    have hle := (@balanced_operatorExpr (x.emit .unnamed) levels 0 hx hlevels).length_le hexpr
    rcases closeMember_cases hclose with ⟨-, hlt⟩ | ⟨hdone, -⟩
    · exact Nat.lt_of_lt_of_le hlt hle
    · cases hdone
  · cases hround

/-- A round of the loop over the parameters consumes the name of one. -/
theorem strides_parameter : Strides (fun _ => parameter) () x := by
  intro r y h
  have hround := (bind_eq_of_ok (at_eq .ident x)).symm.trans h
  split at hround
  · next hident =>
    rw [bind_eq_of_ok (start_eq x), bind_eq_of_ok (advance_eq _)] at hround
    obtain ⟨_, y₁, hcolon, hround⟩ := exists_of_bind_eq_ok hround
    obtain ⟨_, y₂, htype, hclose⟩ := exists_of_bind_eq_ok hround
    have hlt := (x.emit .unnamed).length_consume_lt (eq_of_beq hident ▸ by decide)
    have hle₁ := (carries_expect (by decide)).length_le hcolon
    have hle₂ := carries_typeName.length_le htype
    have hle₃ : y.rest.length ≤ y₂.rest.length := by
      rcases closeMember_cases hclose with ⟨-, hlt⟩ | ⟨-, hrest⟩
      · exact Nat.le_of_lt hlt
      · exact Nat.le_of_eq (congrArg List.length hrest)
    refine .inl ?_
    calc y.rest.length ≤ (x.emit .unnamed).consume.rest.length :=
          Nat.le_trans hle₃ (Nat.le_trans hle₂ hle₁)
      _ < x.rest.length := hlt
  · cases hround
    exact .inr ⟨rfl, rfl, rfl⟩

end Links

section Strays

variable {stop : KindSet} {x y : Parser} {u : Unit}

/-- Setting tokens aside goes on only where there is another one. -/
theorem consumeStep_eq (stop : KindSet) (x : Parser) :
    consumeStep stop x = .ok (if x.consume.nextKind == .eof || stop.contains x.consume.nextKind
      then .done () else .yield (), x.consume) := by
  rw [consumeStep, bind_eq_of_ok (advance_eq x), bind_eq_of_ok (at_eq .eof _),
    bind_eq_of_ok (atAny_eq stop _)]
  split <;> rfl

/-- Where tokens are set aside from a token on, there is a token at the start of each round. -/
theorem nextKind_of_rounds (hx : x.nextKind ≠ .eof)
    (h : Rounds (fun _ => consumeStep stop) () x u y) : y.nextKind ≠ .eof := by
  cases h with
  | first => exact hx
  | next _ hstep =>
    rw [consumeStep_eq] at hstep
    obtain ⟨hanswer, rfl⟩ := Prod.mk.injEq .. ▸ Except.ok.inj hstep
    intro heof
    rw [heof] at hanswer
    cases hanswer

/-- A round of the loop that sets tokens aside consumes one. -/
theorem length_lt_of_consumeStep {z : Parser} {r : ForInStep Unit} (hx : x.nextKind ≠ .eof)
    (h : Rounds (fun _ => consumeStep stop) () x u y) (hstep : consumeStep stop y = .ok (r, z)) :
    z.rest.length < y.rest.length := by
  rw [consumeStep_eq] at hstep
  obtain ⟨-, rfl⟩ := Prod.mk.injEq .. ▸ Except.ok.inj hstep
  exact y.length_consume_lt (nextKind_of_rounds hx h)

end Strays

end Grammar

/-- Between two items or two statements: no level is entered, and the limit counts as not met. -/
structure Parser.AtRest (x : Parser) : Prop where
  sound : x.reader.Sound
  depth_eq : x.nesting.depth = 0
  exhausted_eq : x.nesting.exhausted = false

namespace Parser.AtRest

variable {x y : Parser}

/-- The grammar can descend. -/
theorem enter (hx : x.AtRest) : x.reader.enter.1 = true :=
  Nesting.enter_eq_true_iff.mpr ⟨hx.exhausted_eq, by
    rw [Parser.reader, hx.depth_eq]
    decide⟩

/-- Fewer tokens and other events make no difference. -/
theorem congr (hx : x.AtRest) (hrest : y.rest <:+ x.rest) (hnesting : y.nesting = x.nesting) :
    y.AtRest where
  sound := ⟨fun t ht => hx.sound.kind_ne_eof t (hrest.subset ht), by
    rw [Reader.Shallow, Parser.reader, hnesting]
    exact hx.sound.shallow⟩
  depth_eq := hnesting ▸ hx.depth_eq
  exhausted_eq := hnesting ▸ hx.exhausted_eq

/-- A parser at rest stays so when it consumes a token. -/
theorem consume (hx : x.AtRest) : x.consume.AtRest := by
  refine hx.congr ?_ x.nesting_consume
  unfold Parser.consume
  split
  · exact List.suffix_refl _
  · next hrest => exact hrest ▸ List.suffix_cons _ _

/-- A parser at rest stays so when it writes an event down. -/
theorem emit (hx : x.AtRest) (e : Event) : (x.emit e).AtRest :=
  hx.congr (List.suffix_refl _) rfl

/-- After a round the parser is at rest again. -/
theorem of_round {phrase : Phrase} {stop : KindSet} {slots : List Sketch} (hx : x.AtRest)
    (h : Reads (Phrase.seq [phrase, .recovery stop]) x.reader slots y.reader) : y.AtRest where
  sound := h.sound hx.sound
  depth_eq := h.depth_eq.trans hx.depth_eq
  exhausted_eq := h.exhausted_of_round

/-- Plain phrases leave the parser at rest. -/
theorem of_carries {g : Grammar Unit} {phrase : Phrase} {u : Unit} (hx : x.AtRest)
    (h : Grammar.Carries g phrase x.reader) (hphrase : phrase.isPlain = true)
    (hg : g x = .ok (u, y)) : y.AtRest := by
  obtain ⟨slots, q, hreads, hruns⟩ := h
  rw [← Grammar.reader_of_runs hruns hg] at hreads
  exact hx.congr hreads.rest_suffix (hreads.nesting_eq hphrase)

end Parser.AtRest

namespace Grammar

variable {x y : Parser}

/-- What a round of a loop over items or statements does: it consumes a token and goes on, or it
does nothing and the loop is over. -/
def Advances (x : Parser) (r : ForInStep Unit) (y : Parser) : Prop :=
  r = .yield () ∧ y.rest.length < x.rest.length ∨ r = .done () ∧ y = x

/-- Such a round starts outside all levels, with no note that the limit was met. -/
structure StartsAfresh (step : Grammar (ForInStep Unit)) (x : Parser) : Prop where
  depth_eq : x.nesting.depth = 0
  exhausted_eq : x.nesting.exhausted = false
  returns : Returns step x (Advances x)

section Rounds

variable {step : Grammar (ForInStep Unit)} {phrase : Phrase} {stop : KindSet} {isDone : Bool}

/-- A round returns, and leaves the parser at rest. -/
theorem returns_of_round (hx : x.AtRest)
    (hslack : (Phrase.seq [phrase, .recovery stop]).slack < 12)
    (hdone : isDone = true → step x = .ok (.done (), x))
    (hround : isDone = false → ∃ slots q,
      Reads (Phrase.seq [phrase, .recovery stop]) x.reader slots q ∧
        q.rest.length < x.rest.length ∧ q.enter.1 = true ∧
          ∀ d : Draft, Runs step x.reader d (.yield ()) q (d.fills slots)) :
    Returns step x fun r y => y.AtRest ∧ Advances x r y := by
  cases h : isDone with
  | true => exact .inl ⟨_, x, hdone h, hx, .inr ⟨rfl, rfl⟩⟩
  | false =>
    obtain ⟨slots, q, hreads, hlt, -, hruns⟩ := hround h
    have hcount := hreads.eventCountOf_le.1
    simp only [Goal.held, Goal.slack, Sketch.eventCountOf, Parser.reader] at hcount
    refine returns_of_runs hruns (by omega) fun y hy => ?_
    subst hy
    exact ⟨hx.of_round hreads, .inl ⟨rfl, hlt⟩⟩

/-- The loop over the items is over at the end of the text. -/
theorem fileStep_eq_done (h : (x.nextKind == .eof) = true) : fileStep x = .ok (.done (), x) := by
  refine (bind_eq_of_ok (at_eq .eof x)).trans ?_
  rw [if_pos h]
  rfl

/-- A round over the items of a file comes back at rest, and has advanced if it goes on. -/
theorem returns_fileStep (hx : x.AtRest) :
    Returns fileStep x fun r y => y.AtRest ∧ Advances x r y :=
  returns_of_round hx (by decide) fileStep_eq_done fun h =>
    exists_runs_fileStep hx.sound hx.enter h

/-- The loop over the statements is over at the end of the block or of the text. -/
theorem blockStep_eq_done (h : (x.nextKind == .eof || blockEnd.contains x.nextKind) = true) :
    blockStep x = .ok (.done (), x) := by
  refine (bind_eq_of_ok (at_eq .eof x)).trans ((bind_eq_of_ok (atAny_eq blockEnd x)).trans ?_)
  rw [if_pos h]
  rfl

/-- A round over the statements of a block comes back at rest, and has advanced if it goes on. -/
theorem returns_blockStep (hx : x.AtRest) :
    Returns blockStep x fun r y => y.AtRest ∧ Advances x r y :=
  returns_of_round hx (by decide) blockStep_eq_done fun h =>
    exists_runs_blockStep hx.sound hx.enter h

/-- Every round of a loop starts at rest if the first does and each leaves the parser so. -/
theorem atRest_of_rounds {u : Unit}
    (hstep : ∀ z : Parser, z.AtRest → Returns step z fun r w => w.AtRest ∧ Advances z r w)
    (hx : x.AtRest) (h : Rounds (fun _ => step) () x u y) : y.AtRest := by
  induction h with
  | first => exact hx
  | next _ hround ih => exact ((hstep _ ih).of_eq_ok hround).1

/-- A loop comes to a last round that does nothing. -/
theorem exists_last_round {u : Unit} {z : Parser}
    (hstep : ∀ z : Parser, z.AtRest → Returns step z fun r w => w.AtRest ∧ Advances z r w)
    (hx : x.AtRest) (h : repeatTokens () (fun _ => step) x = .ok (u, z)) :
    ∃ y, Rounds (fun _ => step) () x () y ∧ step y = .ok (.done (), y) := by
  obtain ⟨_, y, hrounds, hdone⟩ := exists_rounds_of_repeatAlong h
  refine ⟨y, hrounds, ?_⟩
  rcases ((hstep y (atRest_of_rounds hstep hx hrounds)).of_eq_ok hdone).2 with
    ⟨hyield, -⟩ | ⟨-, rfl⟩
  · cases hyield
  · exact hdone

/-- A round that comes back at rest starts afresh: at depth 0 and with no note of the limit. -/
theorem startsAfresh_of_returns (hx : x.AtRest)
    (h : Returns step x fun r y => y.AtRest ∧ Advances x r y) : StartsAfresh step x where
  depth_eq := hx.depth_eq
  exhausted_eq := hx.exhausted_eq
  returns := by
    rcases h with ⟨r, y, hy, -, hround⟩ | hfault
    · exact .inl ⟨r, y, hy, hround⟩
    · exact .inr hfault

end Rounds

section Heads

/-- A file up to its items. -/
def fileHead : Grammar (Marker × Marker) := do
  let m ← start
  let items ← start
  return (m, items)

/-- After its head a file goes round the loop over the items. -/
theorem sourceFile_eq_head : sourceFile = (do
    let markers ← fileHead
    repeatTokens () fun _ => fileStep
    discard <| complete markers.2 .itemList
    finishInput
    discard <| complete markers.1 .sourceFile) := by
  simp only [sourceFile, fileHead, bind_assoc, pure_bind]

/-- A function up to its body. -/
def funcHead : Grammar Marker := do
  let m ← start
  advance
  expect .ident
  wrapUntil paramsStop
  (do if ← at? .lParen then paramClause else discard <| missing .paramClause)
  (do if ← at? .arrow then typeAfter .arrow .returnClause else absent)
  return m

/-- After its head a function has its body, if there is one. -/
theorem funcDecl_eq_head : funcDecl = (do
    let m ← funcHead
    if ← at? .lBrace then codeBlock else discard <| missing .codeBlock
    discard <| complete m .funcDecl) := by
  simp only [funcDecl, funcHead, bind_assoc, pure_bind, ite_bind]

/-- A code block up to its statements. -/
def blockHead : Grammar (Marker × Marker) := do
  insist .lBrace
  let m ← start
  advance
  let stmts ← start
  return (m, stmts)

/-- After its head a code block goes round the loop over the statements. -/
theorem codeBlock_eq_head : codeBlock = (do
    let markers ← blockHead
    repeatTokens () fun _ => blockStep
    discard <| complete markers.2 .stmtList
    expect .rBrace
    discard <| complete markers.1 .codeBlock) := by
  simp only [codeBlock, blockHead, bind_assoc, pure_bind]

/-- The rounds over the items of a file start at rest. -/
theorem atRest_fileHead {s : TokenStream} {markers : Marker × Marker}
    (hs : ∀ t ∈ s.tokens, t.kind ≠ .eof) (h : fileHead (.ofStream s) = .ok (markers, y)) :
    y.AtRest := by
  cases h
  exact ⟨⟨hs, Nat.zero_le _⟩, rfl, rfl⟩

/-- The head of a function leaves a parser at rest. -/
theorem atRest_funcHead {m : Marker} (hx : x.AtRest) (h : funcHead x = .ok (m, y)) :
    y.AtRest := by
  rw [funcHead, bind_eq_of_ok (start_eq x), bind_eq_of_ok (advance_eq _)] at h
  obtain ⟨_, y₁, hname, h₁⟩ := exists_of_bind_eq_ok h
  obtain ⟨_, y₂, hstray, h₂⟩ := exists_of_bind_eq_ok h₁
  obtain ⟨_, y₃, hparams, h₃⟩ := exists_of_bind_eq_ok h₂
  obtain ⟨_, y₄, htype, h₄⟩ := exists_of_bind_eq_ok h₃
  cases h₄
  have hrest₁ := (hx.emit .unnamed).consume.of_carries (carries_expect (by decide)) rfl hname
  have hrest₂ := hrest₁.of_carries (carries_wrapUntil hrest₁.sound) rfl hstray
  have hrest₃ := hrest₂.of_carries (carries_choice runs_at_single
    (fun hparen => carries_paramClause hrest₂.sound (by simpa using hparen))
    (fun _ => carries_missing)) rfl hparams
  exact hrest₃.of_carries (carries_choice runs_at_single
    (fun harrow => carries_typeAfter (by simpa using harrow) (by decide))
    (fun _ => carries_absent)) rfl htype

/-- The head of a block opens two markers and consumes the brace between them. -/
theorem blockHead_eq (h : x.nextKind = .lBrace) : ∃ markers,
    blockHead x = .ok (markers, (x.emit .unnamed).consume.emit .unnamed) := by
  have hinsist : insist .lBrace x = .ok ((), x) := by
    refine (bind_eq_of_ok (peek_eq x)).trans ?_
    rw [h]
    rfl
  exact ⟨_, bind_eq_of_ok hinsist⟩

end Heads

/-- The parsers with which the rounds of the loop over the items start, in the parse of a stream of
tokens. -/
inductive ItemRound (s : TokenStream) : Parser → Prop
  | intro {markers : Marker × Marker} {first x : Parser}
    (hhead : fileHead (.ofStream s) = .ok (markers, first))
    (hrounds : Rounds (fun _ => fileStep) () first () x) : ItemRound s x

/-- The parsers with which the rounds of the loops over the statements of blocks start, in the parse
of a stream of tokens. Blocks are in functions only, and functions are items only. -/
inductive StmtRound (s : TokenStream) : Parser → Prop
  | intro {func body first x : Parser} {m : Marker} {markers : Marker × Marker}
    (hitem : ItemRound s func) (hfunc : func.nextKind = .funcKw)
    (hhead : funcHead func = .ok (m, body)) (hbody : body.nextKind = .lBrace)
    (hblock : blockHead body = .ok (markers, first))
    (hrounds : Rounds (fun _ => blockStep) () first () x) : StmtRound s x

section Parse

variable {s : TokenStream}

/-- Every round over the items of a file starts at rest. -/
theorem ItemRound.atRest (hs : ∀ t ∈ s.tokens, t.kind ≠ .eof) (h : ItemRound s x) : x.AtRest := by
  cases h with
  | intro hhead hrounds =>
    exact atRest_of_rounds (fun _ => returns_fileStep) (atRest_fileHead hs hhead) hrounds

/-- Every round over the statements of a block starts at rest. -/
theorem StmtRound.atRest (hs : ∀ t ∈ s.tokens, t.kind ≠ .eof) (h : StmtRound s x) : x.AtRest := by
  cases h with
  | intro hitem _ hhead hbody hblock hrounds =>
    have hfirst := atRest_funcHead (hitem.atRest hs) hhead
    obtain ⟨markers, heq⟩ := blockHead_eq hbody
    cases hblock.symm.trans heq
    exact atRest_of_rounds (fun _ => returns_blockStep) ((hfirst.emit _).consume.emit _) hrounds

/-- The rounds go to the end: the loop over the items of a parse that returns ends with one of them,
and so does the loop over the statements of each body that is read. -/
structure RoundsComplete (s : TokenStream) : Prop where
  items : ∀ y, s.parsed = .ok y → ∃ x, ItemRound s x ∧ fileStep x = .ok (.done (), x)
  stmts : ∀ func m body y, ItemRound s func → func.nextKind = .funcKw →
    funcHead func = .ok (m, body) → body.nextKind = .lBrace → funcDecl func = .ok ((), y) →
      ∃ x, StmtRound s x ∧ blockStep x = .ok (.done (), x)

/-- The rounds over items come to a last one, and so do those over statements. -/
theorem roundsComplete (hs : ∀ t ∈ s.tokens, t.kind ≠ .eof) : RoundsComplete s where
  items y hy := by
    cases hrun : sourceFile (.ofStream s) with
    | error fault => cases hy.symm.trans (TokenStream.parsed_eq_of_error hrun)
    | ok r =>
      rw [sourceFile_eq_head] at hrun
      obtain ⟨markers, first, hhead, hrest⟩ := exists_of_bind_eq_ok hrun
      obtain ⟨_, z, hloop, -⟩ := exists_of_bind_eq_ok hrest
      obtain ⟨x, hrounds, hdone⟩ :=
        exists_last_round (fun _ => returns_fileStep) (atRest_fileHead hs hhead) hloop
      exact ⟨x, .intro hhead hrounds, hdone⟩
  stmts func m body y hitem hfunc hhead hbody hrun := by
    rw [funcDecl_eq_head, bind_eq_of_ok hhead, bind_eq_of_ok (at_eq .lBrace body), hbody] at hrun
    obtain ⟨_, z, hblock, -⟩ := exists_of_bind_eq_ok hrun
    rw [codeBlock_eq_head] at hblock
    obtain ⟨markers, first, hopen, hrest⟩ := exists_of_bind_eq_ok hblock
    obtain ⟨_, w, hloop, -⟩ := exists_of_bind_eq_ok hrest
    have hfirst := StmtRound.intro hitem hfunc hhead hbody hopen .first
    obtain ⟨x, hrounds, hdone⟩ :=
      exists_last_round (fun _ => returns_blockStep) (hfirst.atRest hs) hloop
    exact ⟨x, .intro hitem hfunc hhead hbody hopen hrounds, hdone⟩

end Parse

/-- The productions of expressions are balanced, on this parser and with this number of levels. An
operand enters a level before it reads an expression, so that may have one level less. -/
structure BalancedExprs (levels minPower : Nat) (x : Parser) : Prop where
  operators : Balanced (operatorExpr levels minPower) x
  signs : ∀ inner, maxNesting ≤ inner + x.nesting.depth →
    Balanced (prefixExpr (operatorExpr inner 0) levels) x
  calls : Balanced (postfixExpr (operatorExpr levels 0)) x
  primary : Balanced (primaryExpr (operatorExpr levels 0)) x
  arguments : x.nextKind = .lParen → Balanced (argClause (operatorExpr levels 0)) x

/-- The rounds of the loops inside an expression that is given this number of levels consume tokens.
The operands after an operator have one level less. -/
structure StridingLoops (levels : Nat) (x : Parser) : Prop where
  operators : ∀ minPower a, Strides (operatorLink (operatorExpr (levels - 1)) minPower) a x
  calls : ∀ a, Strides (callLink (operatorExpr levels 0)) a x
  arguments : ∀ u y, argument (operatorExpr levels 0) x = .ok (.yield u, y) →
    y.rest.length < x.rest.length

end Grammar

open Grammar

/-- Expressions are balanced on every parser that keeps to the limit, if they are given enough
levels to get from its depth past the limit; `expr` gives itself enough at any depth. Every loop
makes progress. Those over items and statements start each round at depth 0 and with no note of the
limit, and they come to a last round. So every parse ends, at depth 0 and at the end of the text, or
else on a misplaced marker in a text that is too long for 32 bits. -/
theorem parsing_balances_and_progresses :
    (∀ (x : Parser) (levels minPower : Nat), x.nesting.depth ≤ maxNesting →
      maxNesting + 1 ≤ levels + x.nesting.depth →
        BalancedExprs levels minPower x ∧ StridingLoops levels x) ∧
    (∀ x : Parser, Strides (fun _ => parameter) () x) ∧
    (∀ (stop : KindSet) (x y z : Parser) (u : Unit) (r : ForInStep Unit), x.nextKind ≠ .eof →
      Rounds (fun _ => consumeStep stop) () x u y → consumeStep stop y = .ok (r, z) →
        z.rest.length < y.rest.length) ∧
    ∀ text : String, RoundsComplete (tokenize text) ∧
      (∀ x, ItemRound (tokenize text) x → StartsAfresh fileStep x) ∧
      (∀ x, StmtRound (tokenize text) x → StartsAfresh blockStep x) ∧
      ((∃ y, (tokenize text).parsed = .ok y ∧ y.rest = [] ∧ y.nesting.depth = 0 ∧
          y.nesting.deepest ≤ maxNesting) ∨
        (∃ fault, (tokenize text).parsed = .error fault ∧ fault.isMisplaced = true) ∧
          UInt32.size < 12 * (tokenize text).toList.length) := by
  refine ⟨fun x levels minPower hx hlevels => ⟨⟨?_, ?_, ?_, ?_, ?_⟩, ⟨?_, ?_, ?_⟩⟩,
    fun _ => strides_parameter, fun stop x y z u r hx h hstep => ?_, fun text => ?_⟩
  · exact balanced_operatorExpr minPower hx hlevels
  · exact fun inner hinner => balanced_prefixExpr hx hinner hlevels
  · exact balanced_postfixExpr hx hlevels
  · exact balanced_primaryExpr hx hlevels
  · exact balanced_argClause hx hlevels
  · exact fun minPower a => strides_operatorLink minPower a (by omega)
  · exact fun a => strides_callLink a (by omega)
  · exact fun u y h => length_lt_of_argument hx hlevels h
  · exact length_lt_of_consumeStep hx h hstep
  · have hs : ∀ t ∈ (tokenize text).tokens, t.kind ≠ .eof :=
      fun t ht => (solid_of_mem_tokenize text t ht).ne_eof
    refine ⟨roundsComplete hs, fun x hx => ?_, fun x hx => ?_, ?_⟩
    · exact startsAfresh_of_returns (hx.atRest hs) (returns_fileStep (hx.atRest hs))
    · exact startsAfresh_of_returns (hx.atRest hs) (returns_blockStep (hx.atRest hs))
    · rcases TokenStream.parsed_cases hs with ⟨y, items, hy, hreads, hrest, -⟩ | ⟨hfault, hlt⟩
      · exact .inl ⟨y, hy, hrest, hreads.depth_eq, hreads.deepest_le⟩
      · refine .inr ⟨hfault, ?_⟩
        rwa [TokenStream.toList, List.length_append]

/-- A statement in a function, the arguments of a call, and tokens that fit nowhere. -/
theorem parsing_balances_and_progresses_func :
    (∃ x, ItemRound (tokenize "func f() \x7b g(1) \x7d") x ∧ x.nextKind = .funcKw ∧
      StartsAfresh fileStep x) ∧
    (∃ x, StmtRound (tokenize "func f() \x7b g(1) \x7d") x ∧ x.nextKind = .ident ∧
      StartsAfresh blockStep x) ∧
    Balanced (argClause expr) (.ofStream (tokenize "(-1, 2 * x)(3)")) ∧
    ∃ r z, consumeStep .empty (.ofStream (tokenize "= ) ,")) = .ok (r, z) ∧
      z.rest.length < (tokenize "= ) ,").tokens.length := by
  obtain ⟨hexprs, -, hstrays, htexts⟩ := parsing_balances_and_progresses
  obtain ⟨-, hitems, hstmts, -⟩ := htexts "func f() \x7b g(1) \x7d"
  obtain ⟨func, hfunc⟩ : ∃ func, func = ((Parser.ofStream
      (tokenize "func f() \x7b g(1) \x7d")).emit .unnamed).emit .unnamed := ⟨_, rfl⟩
  have hitem : ItemRound (tokenize "func f() \x7b g(1) \x7d") func := hfunc ▸ .intro rfl .first
  have hkind : func.nextKind = .funcKw := by
    rw [hfunc]
    decide +kernel
  have hkinds : (funcHead func).toOption.map (fun r =>
      (r.2.nextKind, ((r.2.emit .unnamed).consume.emit .unnamed).nextKind)) =
        some (.lBrace, .ident) := by
    rw [hfunc]
    decide +kernel
  cases hhead : funcHead func with
  | error fault =>
    rw [hhead] at hkinds
    cases hkinds
  | ok r =>
    rw [hhead] at hkinds
    obtain ⟨hbody, hname⟩ := Prod.mk.injEq .. ▸ Option.some.inj hkinds
    obtain ⟨markers, hblock⟩ := blockHead_eq hbody
    have hstmt := StmtRound.intro hitem hkind hhead hbody hblock .first
    have hstray := consumeStep_eq .empty (.ofStream (tokenize "= ) ,"))
    refine ⟨⟨_, hitem, hkind, hitems _ hitem⟩, ⟨_, hstmt, hname, hstmts _ hstmt⟩, ?_,
      _, _, hstray, hstrays _ _ _ _ _ _ (by decide +kernel) .first hstray⟩
    exact (hexprs _ (maxNesting + 1) 0 (Nat.zero_le _) (Nat.le_refl _)).1.arguments
      (by decide +kernel)

end Verbatim
