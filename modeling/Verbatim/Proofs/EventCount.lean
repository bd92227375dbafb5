import Verbatim.Proofs.Descent.Declarations

/-!
# A bound on the number of events

A parse writes at most twelve events down for each token, and a few more. The dearest token is the
parenthesis of a call whose argument is missing. A placeholder costs an event and no token, so the
bound is kept for a phrase as a slack: how many events it may write beyond twelve for each of its
tokens, and how many if it has a token at all.
-/

namespace Verbatim

namespace Phrase

mutual
/-- Events of a phrase beyond twelve for each token. -/
def slack : Phrase → Int
  | token _ => -11
  | missing _ | absent => 1
  | either _ there other => max there.slack other.slack
  | seq parts => slackOf parts
  | node _ parts => slackOf parts + 2
  | stray _ => -9
  | recovery _ | params | stmts | items => 0
  | operators _ | prefixed => 1
  | args => 4
/-- Events of several phrases beyond twelve for each token. -/
def slackOf : List Phrase → Int
  | [] => 0
  | x :: rest => x.slack + slackOf rest
end

mutual
/-- Events of a phrase beyond twelve for each token, if it has one. -/
def slackRead : Phrase → Int
  | token _ | missing _ | absent => -11
  | either _ there other => max there.slackRead other.slackRead
  | seq parts => slackReadOf parts
  | node _ parts => slackReadOf parts + 2
  | stray _ | recovery _ => -9
  | params | stmts | items => 0
  | operators _ | prefixed => -7
  | args => 4
/-- Events of several phrases beyond twelve for each token, if they have one. -/
def slackReadOf : List Phrase → Int
  | [] => -11
  | x :: rest => max (x.slackRead + slackOf rest) (x.slack + slackReadOf rest)
end

end Phrase

namespace Goal

/-- As `Phrase.slack`, for what follows an operand or a callee. -/
def slack : Goal → Int
  | phrase x => x.slack
  | links .. | calls .. => 0

/-- As `Phrase.slackRead`, for what follows an operand or a callee. -/
def slackRead : Goal → Int
  | phrase x => x.slackRead
  | links .. => -8
  | calls .. => 0

end Goal

/-- No overly nested statement ends where an expression starts. -/
theorem Grammar.not_stop_of_exprFirst {kind : Kind} (h : exprFirst.contains kind = true) :
    (true && !(kind == .eof) && !nestingStop.contains kind) = true := by
  simp only [exprFirst, KindSet.contains_ofList, List.contains_iff_mem] at h
  revert kind
  decide

namespace Reads

variable {goal : Goal} {p q : Reader} {slots : List Sketch}

/-- Once the nesting limit was met, no operator is read. -/
theorem of_links_exhausted {m k : Nat} {lhs : Sketch} (h : Reads (.links m lhs k) p slots q)
    (hp : p.nesting.exhausted = true) :
    slots = [lhs] ∧ q.rest = p.rest ∧ q.nesting.exhausted = true := by
  cases h with
  | linksDone _ => exact ⟨rfl, rfl, hp⟩
  | linkRefused _ _ henter => exact ⟨rfl, rfl, Nesting.exhausted_of_refused henter⟩
  | link _ _ henter _ _ =>
    rw [(Nesting.enter_eq_true_iff.mp henter).1] at hp
    cases hp

/-- Past the nesting limit an expression is a placeholder. -/
theorem of_operators_refused {m : Nat} (h : Reads (Phrase.operators m) p slots q)
    (henter : p.enter.1 = false) :
    slots = [.missing .missingExpr] ∧ q.rest = p.rest ∧ q.nesting.exhausted = true := by
  cases h with
  | operators hprefixed hlinks =>
    cases hprefixed with
    | tooDeep _ =>
      have hexhausted : p.enter.2.nesting.exhausted = true := Nesting.exhausted_of_refused henter
      obtain ⟨hslots, hrest, hq⟩ := hlinks.of_links_exhausted hexhausted
      exact ⟨hslots, hrest, hq⟩
    | negated hgranted _ _ =>
      rw [Reader.enter, hgranted] at henter
      cases henter
    | operand hgranted _ _ _ =>
      rw [hgranted] at henter
      cases henter

/-- Calls are read after a callee only, not after a placeholder for one. -/
theorem length_lt_of_calls {r : Reader} {callee : Sketch} {k : Nat} {slots' : List Sketch}
    (h : Reads Phrase.primary p slots q) (hminus : p.next ≠ .minus)
    (hcalls : Reads (.calls callee k) q slots' r) (hlt : r.rest.length < q.rest.length) :
    q.rest.length < p.rest.length := by
  refine Nat.lt_of_le_of_ne h.rest_suffix.length_le fun heq => ?_
  have hrest : q.rest = p.rest := h.rest_suffix.eq_of_length heq
  cases hcalls with
  | callsDone _ => exact absurd hlt (Nat.lt_irrefl _)
  | callRefused _ _ => exact absurd hlt (Nat.lt_irrefl _)
  | call hparen _ _ _ =>
    have hnext : p.next = .lParen := (Reader.next_of_rest_eq hrest).symm.trans hparen
    have := h.length_lt_of_primary (by rw [hnext]; decide) hminus
    omega

/-- A statement that consumes no token is an expression past the nesting limit. -/
theorem of_stmt_refused (h : Reads Phrase.stmt p slots q) (henter : p.enter.1 = false) :
    q.rest.length < p.rest.length ∨
      Grammar.exprFirst.contains p.next = true ∧ q.rest = p.rest ∧ q.nesting.exhausted = true := by
  cases h with
  | there _ hx => exact .inl hx.length_lt_of_token
  | other _ hx =>
    cases hx with
    | there _ hx => exact .inl hx.length_lt_of_token
    | other _ hx =>
      cases hx with
      | there hfirst hx =>
        cases hx with
        | node hparts =>
          cases hparts with
          | cons hexpr hrest =>
            cases hrest
            exact .inr ⟨hfirst, (hexpr.of_operators_refused henter).2⟩
      | other _ hx => exact .inl hx.length_lt_of_stray

/-- A statement with what is set aside after it consumes a token. -/
theorem length_lt_of_round
    (h : Reads (Phrase.seq [.stmt, .recovery Grammar.nestingStop]) p slots q) :
    q.rest.length < p.rest.length := by
  cases h with
  | cons hstmt hrest =>
    have hle := hrest.length_le
    cases henter : p.enter.1 with
    | true => exact Nat.lt_of_le_of_lt hle (hstmt.length_lt_of_stmt henter)
    | false =>
      obtain hlt | ⟨hfirst, hsame, hexhausted⟩ := hstmt.of_stmt_refused henter
      · exact Nat.lt_of_le_of_lt hle hlt
      · cases hrest with
        | cons hrecovery hnil =>
          cases hnil
          rw [← hsame]
          cases hrecovery with
          | calm hcalm =>
            rw [← Reader.next_of_rest_eq hsame] at hfirst
            rw [Reader.isStuck, hexhausted, Grammar.not_stop_of_exprFirst hfirst] at hcalm
            cases hcalm
          | rescue _ hs => exact hs.length_lt_of_stray

/-- The number of events of what was read, by the tokens that were read. -/
theorem eventCountOf_le (h : Reads goal p slots q) :
    (Sketch.eventCountOf slots : Int) + 12 * q.rest.length ≤
        Sketch.eventCountOf goal.held + 12 * p.rest.length + goal.slack ∧
      (q.rest.length < p.rest.length → (Sketch.eventCountOf slots : Int) + 12 * q.rest.length ≤
        Sketch.eventCountOf goal.held + 12 * p.rest.length + goal.slackRead) := by
  -- a list is bounded only because each of its rounds reads a token, hence the second part
  induction h with
  | token _ | missing | absent | nil =>
    simp only [Sketch.eventCountOf, Sketch.eventCount, Goal.held, Goal.slack, Goal.slackRead,
      Phrase.slack, Phrase.slackRead, Phrase.slackOf, Phrase.slackReadOf, List.length_cons]
    omega
  | there _ _ ih | other _ _ ih =>
    simp only [Goal.held, Goal.slack, Goal.slackRead, Phrase.slack, Phrase.slackRead] at ih ⊢
    omega
  | cons hx hxs ihx ihxs =>
    have hle := hx.rest_suffix.length_le
    have hle' := hxs.rest_suffix.length_le
    simp only [Goal.held, Goal.slack, Goal.slackRead, Phrase.slack, Phrase.slackRead,
      Phrase.slackOf, Phrase.slackReadOf, Sketch.eventCountOf_append, Sketch.eventCountOf] at *
    omega
  | node _ ih =>
    simp only [Goal.held, Goal.slack, Goal.slackRead, Phrase.slack, Phrase.slackRead,
      Sketch.eventCountOf, Sketch.eventCount] at *
    omega
  | @stray t rest n stop =>
    have hlen := congrArg List.length (rest.takeWhile_append_dropWhile
      (p := fun u => !stop.contains u.kind))
    rw [List.length_append] at hlen
    simp only [Goal.held, Goal.slack, Goal.slackRead, Phrase.slack, Phrase.slackRead,
      Sketch.eventCountOf, Sketch.eventCount, Sketch.eventCountOf_map_token, List.length_cons]
    omega
  | calm _ | argsDone _ | paramsDone _ | stmtsDone _ | itemsDone _ =>
    simp only [Sketch.eventCountOf, Goal.held, Goal.slack, Goal.slackRead, Phrase.slack,
      Phrase.slackRead, Reader.rest_calm]
    omega
  | rescue _ _ ih =>
    simp only [Goal.held, Goal.slack, Goal.slackRead, Phrase.slack, Phrase.slackRead,
      Reader.rest_calm] at ih ⊢
    omega
  | operators hfirst hlinks ihfirst ihlinks =>
    have hle := hfirst.rest_suffix.length_le
    have hle' := hlinks.rest_suffix.length_le
    simp only [Goal.held, Goal.slack, Goal.slackRead, Phrase.slack, Phrase.slackRead,
      Sketch.eventCountOf] at *
    omega
  | linksDone _ | linkRefused _ _ _ | callsDone _ | callRefused _ _ =>
    simp [Goal.held, Goal.slack, Goal.slackRead]
  | link _ _ _ hrhs hlinks ihrhs ihlinks =>
    have hle := hrhs.rest_suffix.length_le
    have hle' := hlinks.rest_suffix.length_le
    simp only [Goal.held, Goal.slack, Goal.slackRead, Phrase.slack, Phrase.slackRead,
      Sketch.eventCountOf, Sketch.eventCount, List.length_cons] at *
    omega
  | tooDeep _ =>
    simp only [Goal.held, Goal.slack, Goal.slackRead, Phrase.slack, Phrase.slackRead,
      Sketch.eventCountOf, Sketch.eventCount, Reader.rest_enter]
    omega
  | negated _ _ hoperand ih =>
    have hle := hoperand.rest_suffix.length_le
    simp only [Goal.held, Goal.slack, Goal.slackRead, Phrase.slack, Phrase.slackRead,
      Sketch.eventCountOf, Sketch.eventCount, List.length_cons, Reader.rest_leave] at *
    omega
  | operand _ hminus hcallee hcalls ihcallee ihcalls =>
    have hle := hcallee.rest_suffix.length_le
    have hle' := hcalls.rest_suffix.length_le
    have hread := hcallee.length_lt_of_calls hminus hcalls
    have hslack : Phrase.primary.slack = 1 := by decide
    have hslackRead : Phrase.primary.slackRead = -7 := by decide
    simp only [Goal.held, Goal.slack, Goal.slackRead, hslack, hslackRead, Sketch.eventCountOf,
      Reader.rest_leave, Reader.rest_enter] at *
    simp only [Phrase.slack, Phrase.slackRead]
    omega
  | call _ _ hclause hcalls ihclause ihcalls =>
    have hle := hclause.rest_suffix.length_le
    have hle' := hcalls.rest_suffix.length_le
    have hslack : Phrase.argClause.slack = -2 := by decide
    simp only [Goal.held, Goal.slack, Goal.slackRead, hslack,
      Sketch.eventCountOf, Sketch.eventCount, Reader.rest_enter] at *
    omega
  | argMore _ harg _ hmore iharg ihmore =>
    simp only [Goal.held, Goal.slack, Goal.slackRead, Phrase.slack, Phrase.slackRead, Phrase.expr,
      Sketch.eventCountOf, Sketch.eventCount, Sketch.eventCountOf_append, List.length_cons] at *
    omega
  | argLast _ harg _ iharg =>
    simp only [Goal.held, Goal.slack, Goal.slackRead, Phrase.slack, Phrase.slackRead,
      Phrase.expr, Sketch.eventCountOf, Sketch.eventCount, Sketch.eventCountOf_append] at *
    omega
  | paramMore hparam _ hmore ihparam ihmore =>
    have hslack : (Phrase.seq [.token .ident, .required .colon, .typeName]).slack =
        -9 := by decide
    simp only [Goal.held, Goal.slack, Goal.slackRead, Phrase.slackRead, hslack,
      Sketch.eventCountOf, Sketch.eventCount, Sketch.eventCountOf_append, List.length_cons] at *
    simp only [Phrase.slack] at *
    omega
  | paramLast hparam _ ihparam =>
    have hslack : (Phrase.seq [.token .ident, .required .colon, .typeName]).slack =
        -9 := by decide
    simp only [Goal.held, Goal.slack, Goal.slackRead, Phrase.slackRead, hslack,
      Sketch.eventCountOf, Sketch.eventCount, Sketch.eventCountOf_append] at *
    simp only [Phrase.slack] at *
    omega
  | stmtsMore _ hstmt hmore ihstmt ihmore =>
    have hlt := hstmt.length_lt_of_round
    have hslack : (Phrase.seq [.stmt, .recovery Grammar.nestingStop]).slackRead = -5 := by decide
    simp only [Goal.held, Goal.slack, Goal.slackRead, hslack, Sketch.eventCountOf,
      Sketch.eventCountOf_append] at *
    simp only [Phrase.slack, Phrase.slackRead] at *
    omega
  | itemsMore _ hitem hmore ihitem ihmore =>
    have hslack : (Phrase.seq [.item, .recovery Grammar.itemFirst]).slack = -4 := by decide
    simp only [Goal.held, Goal.slack, Goal.slackRead, hslack, Sketch.eventCountOf,
      Sketch.eventCountOf_append] at *
    simp only [Phrase.slack, Phrase.slackRead] at *
    omega

end Reads

/-- A file takes at most twelve events for each token, and five more. -/
theorem Sketch.eventCount_file_le {tokens : List Token} {n : Nesting} {items : List Sketch}
    {q : Reader} (h : Reads Phrase.items ⟨tokens, n⟩ items q) (eof : Token) :
    (file items eof).eventCount ≤ 12 * tokens.length + 5 := by
  have hle := h.eventCountOf_le.1
  simp only [Goal.held, Goal.slack, Phrase.slack, eventCountOf] at hle
  simp only [file, eventCount, eventCountOf]
  omega

/-- With fewer than 2^28 tokens every node starts at a position that fits. -/
theorem Sketch.fits_file {tokens : List Token} {n : Nesting} {items : List Sketch} {q : Reader}
    (h : Reads Phrase.items ⟨tokens, n⟩ items q) (eof : Token) (hlen : tokens.length < 1 <<< 28) :
    Event.Fits ((file items eof).events none) := by
  refine Event.fits_of_length_le ?_
  rw [length_events]
  have hle := eventCount_file_le h eof
  have hsize : UInt32.size = 1 <<< 32 := rfl
  omega

/-- A parse reads the text to its end and writes at most twelve events for each token and five more.
It can only fail on a misplaced marker, and only if twelve events for each token, and for the end of
the text, are too many for 32 bits. -/
theorem TokenStream.parsed_cases {s : TokenStream} (hs : ∀ t ∈ s.tokens, t.kind ≠ .eof) :
    (∃ y items, s.parsed = .ok y ∧ Reads Phrase.items ⟨s.tokens, {}⟩ items y.reader ∧
        y.rest = [] ∧ y.events.size ≤ 12 * s.tokens.length + 5) ∨
      (∃ fault, s.parsed = .error fault ∧ fault.isMisplaced = true) ∧
        UInt32.size < 12 * (s.tokens.length + 1) := by
  obtain ⟨items, q, hreads, hrest, hparsed⟩ := s.exists_parsed hs
  have hcount := Sketch.eventCount_file_le hreads s.eof
  have hlength : (Draft.fill {} (.file items s.eof)).events.length =
      (Sketch.file items s.eof).eventCount := by
    rw [Draft.events_fill_empty, Sketch.length_events]
  rcases hparsed with ⟨y, hy, hreader, -, hshows⟩ | ⟨hfault, hnot⟩
  · subst hreader
    refine .inl ⟨y, items, hy, hreads, hrest, ?_⟩
    rw [hshows.size_eq, Draft.size, hlength]
    exact hcount
  · refine .inr ⟨hfault, Nat.lt_of_not_le fun hle => hnot (Event.fits_of_length_le ?_)⟩
    rw [hlength]
    omega

end Verbatim
