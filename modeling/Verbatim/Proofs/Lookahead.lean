import Verbatim.Proofs.Acceptance.Completeness
import Verbatim.Proofs.Everywhere
import Verbatim.Proofs.Strays

/-!
# What the grammar looks out for

The grammar looks at the next token before it fills a slot with a placeholder or sets tokens aside.
A phrase is attentive if its choices rule out every token that would make a placeholder needless,
and every keyword that starts a declaration, before it does so; which tokens are ruled out is
computed from the phrase. What attentive phrases read shows this everywhere: nothing is missing
that comes next, and no declaration is set aside. Only an expression may be missing in front of
one, where the nesting limit was met.
-/

namespace Verbatim

/-- What an element starts with if the grammar can find it missing. -/
def Kind.openers : Kind → List Kind
  | .paramClause => [.lParen]
  | .codeBlock => [.lBrace]
  | .typeName => [.ident]
  | .missingExpr => [.ident, .intNumber, .lParen, .minus]
  | kind => if kind.isToken then [kind] else []

namespace Sketch

open Grammar

/-- Nothing is missing that comes next, no keyword of a declaration was set aside, and what was set
aside in a list is apart. A missing expression counts if the parse met no limit. -/
def Attentive (unlimited : Prop) : Sketch → List Token → Prop
  | missing kind, after => kind ≠ .unexpected ∧
    ((kind = .missingExpr → unlimited) → Kind.first (after.map Token.kind) ∉ kind.openers)
  | node .unexpected _ slots, _ => ∀ t, token t ∈ slots → itemFirst.contains t.kind = false
  | node .stmtList _ slots, _ | node .itemList _ slots, _ => Apart slots
  | _, _ => True

/-- As `Attentive`, and something follows what is missing. -/
def Followed (unlimited : Prop) (s : Sketch) (after : List Token) : Prop :=
  s.Attentive unlimited after ∧ ∀ kind, s = missing kind → after ≠ []

/-- Nothing is missing without need, here and everywhere below. -/
def AllAttentive (unlimited : Prop) (whole : Sketch) : Prop :=
  whole.Everywhere (Followed unlimited) []

theorem attentive_node {unlimited : Prop} {kind : Kind} (hstray : kind ≠ .unexpected)
    (hstmts : kind ≠ .stmtList) (hitems : kind ≠ .itemList) (late : Bool) (slots : List Sketch)
    (after : List Token) :
    (node kind late slots).Attentive unlimited after := by
  cases kind <;> trivial

/-- The end of the text may be written down behind the tokens. -/
theorem Attentive.append_eof {unlimited : Prop} {s : Sketch} {after : List Token} {eof : Token}
    (h : s.Attentive unlimited after) (heof : eof.kind = .eof) :
    s.Attentive unlimited (after ++ [eof]) := by
  have hfirst : Kind.first ((after ++ [eof]).map Token.kind) =
      Kind.first (after.map Token.kind) := by
    cases after with
    | nil => exact heof
    | cons => rfl
  cases s with
  | token | absent => trivial
  | missing kind => exact ⟨h.1, hfirst ▸ h.2⟩
  | node kind late slots =>
    -- Nodes do not look at what follows.
    cases kind <;> exact h

end Sketch

namespace Phrase

open Grammar

mutual
/-- Whether a phrase holds statements or items, which are read while the limit is not met. -/
def hasLoop : Phrase → Bool
  | stmts | items => true
  | either _ there other => there.hasLoop || other.hasLoop
  | seq parts | node _ parts => haveLoop parts
  | _ => false
/-- Whether one of several phrases holds statements or items. -/
def haveLoop : List Phrase → Bool
  | [] => false
  | x :: rest => x.hasLoop || haveLoop rest
end

/-- Whether these are the parts of a list of statements. -/
def isStmts : List Phrase → Bool
  | [stmts] => true
  | _ => false

theorem eq_of_isStmts {parts : List Phrase} (h : isStmts parts = true) : parts = [stmts] := by
  unfold isStmts at h
  split at h
  · rfl
  · cases h

/-- Whether a set holds the keywords that start a declaration. -/
def spares (stop : KindSet) : Bool := stop.contains .funcKw && stop.contains .letKw

/-- What is not in such a set starts no declaration. -/
theorem itemFirst_of_spares {stop : KindSet} {kind : Kind} (h : spares stop = true)
    (hkind : stop.contains kind = false) : itemFirst.contains kind = false := by
  refine Bool.eq_false_iff.mpr fun hfirst => ?_
  obtain ⟨hfunc, hlet⟩ := Bool.and_eq_true_iff.mp h
  simp only [itemFirst, KindSet.contains_ofList, List.contains_iff_mem, List.mem_cons,
    List.not_mem_nil, or_false] at hfirst
  rcases hfirst with rfl | rfl
  · rw [hfunc] at hkind
    cases hkind
  · rw [hlet] at hkind
    cases hkind

mutual
/-- Whether a phrase is attentive where the next token is none of those that were passed over. -/
def isAttentive (passed : KindSet) : Phrase → Bool
  | missing kind => kind != .unexpected && kind.openers.all passed.contains
  | either first there other =>
    there.isAttentive passed && other.isAttentive (passed.union first)
  | seq parts => areAttentive passed parts
  | node kind parts =>
    kind != .unexpected && kind != .itemList && (kind != .stmtList || isStmts parts) &&
      areAttentive passed parts
  | stray stop => spares passed && spares stop
  | recovery stop => spares stop
  | _ => true
/-- Whether several phrases are attentive, and loops among them are reached without a limit. -/
def areAttentive (passed : KindSet) : List Phrase → Bool
  | [] => true
  | x :: rest =>
    x.isAttentive passed && areAttentive .empty rest && (x.isPlain || !haveLoop rest)
end

end Phrase

namespace Goal

/-- A phrase is attentive to the next token, and what was read before was attentive. -/
def Attends (unlimited : Prop) (p : Reader) : Goal → Prop
  | phrase x => ∃ passed : KindSet, passed.contains p.next = false ∧ x.isAttentive passed = true ∧
    (x.hasLoop = true → p.nesting.exhausted = false)
  | links _ s _ | calls s _ => s.Everywhere (Sketch.Attentive unlimited) p.rest

/-- A phrase without loops may be attentive to any token. -/
theorem attends {unlimited : Prop} {p : Reader} {x : Phrase} (h : x.isAttentive .empty = true)
    (hloop : x.hasLoop = false) : Attends unlimited p x :=
  ⟨.empty, KindSet.contains_empty _, h, fun h => absurd h (by simp [hloop])⟩

end Goal

namespace Reads

open Grammar Sketch

variable {goal : Goal} {p q r : Reader} {slots more : List Sketch} {unlimited : Prop}

/-- Nothing was refused before, if nothing was refused in the end. -/
theorem refusals_eq_zero (h : Reads goal p slots q) (hq : q.nesting.refusals = 0) :
    p.nesting.refusals = 0 :=
  Nat.eq_zero_of_le_zero (Nat.le_trans h.refusals_le (Nat.le_of_eq hq))

/-- What is read later comes after what is read before. -/
theorem everywhereIn_append {P : Sketch → List Token → Prop} {y : Phrase} (hy : Reads y q more r)
    (hslots : EverywhereIn P q.rest slots) (hmore : EverywhereIn P r.rest more) :
    EverywhereIn P r.rest (slots ++ more) := by
  refine Sketch.everywhereIn_append.mpr ⟨?_, hmore⟩
  rw [hy.tokensOf_append_rest]
  exact hslots

/-- A member of a list comes before the members that are read later. -/
theorem everywhereIn_cons {P : Sketch → List Token → Prop} {y : Phrase} {kind : Kind}
    {last : Sketch} (hy : Reads y q more r) (hnode : P (.node kind false (slots ++ [last])) q.rest)
    (hslots : EverywhereIn P (last.tokens ++ q.rest) slots) (hlast : last.Everywhere P q.rest)
    (hmore : EverywhereIn P r.rest more) :
    EverywhereIn P r.rest (.node kind false (slots ++ [last]) :: more) := by
  have htokens : tokensOf more ++ r.rest = q.rest := hy.tokensOf_append_rest
  refine ⟨?_, hmore⟩
  rw [htokens]
  refine ⟨hnode, Sketch.everywhereIn_append.mpr ⟨?_, everywhereIn_singleton.mpr hlast⟩⟩
  rwa [tokensOf, tokensOf, List.append_nil]

/-- Everything that is derived is attentive. -/
theorem attentive (h : Reads goal p slots q) (hgoal : goal.Attends unlimited p)
    (hq : unlimited → q.nesting.refusals = 0) :
    EverywhereIn (Attentive unlimited) q.rest slots := by
  induction h with
  | token | absent => exact ⟨trivial, trivial⟩
  | @missing p kind =>
    obtain ⟨passed, hnext, hkind, -⟩ := hgoal
    obtain ⟨hkind, hopeners⟩ := Bool.and_eq_true_iff.mp hkind
    refine ⟨⟨bne_iff_ne.mp hkind, fun _ hopener => ?_⟩, trivial⟩
    have hpassed := List.all_eq_true.mp hopeners _ hopener
    rw [tokensOf, List.nil_append, ← Reader.kinds, ← Reader.next_eq_first, hnext] at hpassed
    cases hpassed
  | there _ _ ih =>
    obtain ⟨passed, hnext, hx, hloop⟩ := hgoal
    refine ih ⟨passed, hnext, (Bool.and_eq_true_iff.mp hx).1, fun h => hloop ?_⟩ hq
    rw [Phrase.hasLoop, h, Bool.true_or]
  | @other first x y p q slots hfirst _ ih =>
    obtain ⟨passed, hnext, hx, hloop⟩ := hgoal
    refine ih ⟨passed.union first, ?_, (Bool.and_eq_true_iff.mp hx).2, fun h => hloop ?_⟩ hq
    · rw [KindSet.contains_union, hnext, hfirst, Bool.or_false]
    · rw [Phrase.hasLoop, h, Bool.or_true]
  | nil | calm | argsDone | paramsDone | stmtsDone | itemsDone => trivial
  | cons hx hxs ihx ihxs =>
    obtain ⟨passed, hnext, hparts, hloop⟩ := hgoal
    simp only [Phrase.isAttentive, Phrase.areAttentive, Bool.and_eq_true, Bool.or_eq_true,
      Bool.not_eq_true'] at hparts
    obtain ⟨⟨hfirst, hrest⟩, hplain⟩ := hparts
    refine everywhereIn_append hxs (ihx ⟨passed, hnext, hfirst, fun h => hloop ?_⟩ ?_)
      (ihxs ⟨.empty, KindSet.contains_empty _, hrest, fun h => ?_⟩ hq)
    · rw [Phrase.hasLoop, Phrase.haveLoop, h, Bool.true_or]
    · exact fun hu => hxs.refusals_eq_zero (hq hu)
    · -- A loop is reached past parts that do not touch the nesting.
      change Phrase.haveLoop _ = true at h
      rcases hplain with hplain | hplain
      · rw [hx.nesting_eq hplain]
        exact hloop (by rw [Phrase.hasLoop, Phrase.haveLoop, h, Bool.or_true])
      · rw [hplain] at h
        cases h
  | @node kind parts p q slots hparts ih =>
    obtain ⟨passed, hnext, hx, hloop⟩ := hgoal
    simp only [Phrase.isAttentive, Bool.and_eq_true, Bool.or_eq_true, bne_iff_ne] at hx
    obtain ⟨⟨⟨hkind, hitems⟩, hlist⟩, hall⟩ := hx
    refine ⟨⟨?_, ih ⟨passed, hnext, hall, hloop⟩ hq⟩, trivial⟩
    by_cases hstmts : kind = .stmtList
    · obtain rfl := hstmts
      obtain rfl := Phrase.eq_of_isStmts (hlist.resolve_left fun h => h rfl)
      cases hparts with
      | cons hstmts hnil =>
        cases hnil
        rw [List.append_nil]
        exact (hstmts.apart_stmts (hloop rfl)).1
    · exact attentive_node hkind hstmts hitems ..
  | @stray t rest n stop =>
    obtain ⟨passed, hnext, hx, -⟩ := hgoal
    obtain ⟨hpassed, hstop⟩ := Bool.and_eq_true_iff.mp hx
    refine ⟨⟨fun u hu => ?_, everywhereIn_map_token fun _ _ => trivial⟩, trivial⟩
    obtain ⟨u, hmem, hu⟩ := List.mem_map.mp hu
    cases hu
    rcases List.mem_cons.mp hmem with rfl | hmem
    · exact Phrase.itemFirst_of_spares hpassed hnext
    · have hnot := List.all_eq_true.mp List.all_takeWhile u hmem
      exact Phrase.itemFirst_of_spares hstop ((Bool.not_eq_true' _).mp hnot)
  | @rescue p q stop slots hstuck _ ih =>
    obtain ⟨passed, -, hx, -⟩ := hgoal
    simp only [Reader.isStuck, Bool.and_eq_true, Bool.not_eq_true'] at hstuck
    refine ih ⟨stop, hstuck.2, ?_, fun h => ?_⟩ hq
    · exact Bool.and_eq_true_iff.mpr ⟨hx, hx⟩
    · cases h
  | operators _ hlinks ihfirst ihlinks =>
    refine ihlinks ?_ hq
    refine everywhereIn_singleton.mp (ihfirst (Goal.attends rfl rfl) fun hu => ?_)
    exact hlinks.refusals_eq_zero (hq hu)
  | linksDone | linkRefused | callsDone | callRefused => exact everywhereIn_singleton.mpr hgoal
  | link _ _ _ hrhs hlinks ihrhs ihlinks =>
    refine ihlinks ⟨trivial, ?_, trivial, ?_⟩ hq
    · rw [tokensOf, List.append_assoc, hrhs.tokensOf_append_rest]
      exact hgoal
    · exact ihrhs (Goal.attends rfl rfl) fun hu => hlinks.refusals_eq_zero (hq hu)
  | tooDeep henter =>
    refine ⟨⟨by decide, fun hu => ?_⟩, trivial⟩
    have hrefused := hq (hu rfl)
    rw [Reader.enter, Nesting.refusals_of_refused henter] at hrefused
    cases hrefused
  | negated _ _ _ ih =>
    exact ⟨⟨trivial, trivial, ih (Goal.attends rfl rfl) hq⟩, trivial⟩
  | operand _ hminus _ hcalls ihcallee ihcalls =>
    refine ihcalls (everywhereIn_singleton.mp (ihcallee ⟨.single .minus, ?_, rfl, ?_⟩ ?_)) hq
    · rw [KindSet.contains_single]
      exact beq_false_of_ne hminus
    · exact fun h => by cases h
    · exact fun hu => hcalls.refusals_eq_zero (hq hu)
  | call _ _ hclause hcalls ihclause ihcalls =>
    refine ihcalls ⟨trivial, ?_, ?_⟩ hq
    · rw [hclause.tokensOf_append_rest]
      exact hgoal
    · exact ihclause (Goal.attends rfl rfl) fun hu => hcalls.refusals_eq_zero (hq hu)
  | argMore _ _ _ hmore iharg ihmore =>
    exact hmore.everywhereIn_cons trivial (iharg (Goal.attends rfl rfl)
      fun hu => hmore.refusals_eq_zero (hq hu)) trivial (ihmore (Goal.attends rfl rfl) hq)
  | paramMore _ _ hmore ihparam ihmore =>
    exact hmore.everywhereIn_cons trivial (ihparam (Goal.attends rfl rfl)
      fun hu => hmore.refusals_eq_zero (hq hu)) trivial (ihmore (Goal.attends rfl rfl) hq)
  | argLast _ _ _ ih | paramLast _ _ ih =>
    exact Reads.nil.everywhereIn_cons trivial (ih (Goal.attends rfl rfl) hq) trivial trivial
  | stmtsMore hguard hstmt hmore ihstmt ihmore =>
    refine everywhereIn_append hmore (ihstmt ⟨blockEnd, ?_, by decide, fun h => by cases h⟩ ?_)
      (ihmore ⟨.empty, KindSet.contains_empty _, rfl, fun _ => hstmt.exhausted_of_round⟩ hq)
    · exact (Bool.or_eq_false_iff.mp hguard).2
    · exact fun hu => hmore.refusals_eq_zero (hq hu)
  | itemsMore _ hitem hmore ihitem ihmore =>
    obtain ⟨-, -, -, hloop⟩ := hgoal
    refine everywhereIn_append hmore
      (ihitem ⟨.empty, KindSet.contains_empty _, by decide, fun _ => hloop rfl⟩ ?_)
      (ihmore ⟨.empty, KindSet.contains_empty _, rfl, fun _ => hitem.exhausted_of_round⟩ hq)
    exact fun hu => hmore.refusals_eq_zero (hq hu)

/-- The sketch of a file is attentive. -/
theorem allAttentive_file {tokens : List Token} {items : List Sketch} {n : Nesting}
    (h : Reads Phrase.items ⟨tokens, {}⟩ items ⟨[], n⟩) (hn : unlimited → n.refusals = 0)
    {eof : Token} (heof : eof.kind = .eof) : (Sketch.file items eof).AllAttentive unlimited := by
  have hitems : (Sketch.node .itemList false items).Everywhere (Attentive unlimited) [] :=
    ⟨(h.apart_items rfl).1, h.attentive ⟨.empty, KindSet.contains_empty _, rfl, fun _ => rfl⟩ hn⟩
  have hlist : (Sketch.node .itemList false items).Everywhere (Followed unlimited) [eof] := by
    refine @Everywhere.imp _ _ (fun a b => b = a ++ [eof]) ?_ ?_ _ _ _ rfl hitems
    · rintro tokens a _ rfl
      exact (List.append_assoc ..).symm
    · rintro s a _ rfl hs
      exact ⟨hs.append_eof heof, fun _ _ => by simp⟩
  exact ⟨⟨trivial, fun _ h => by cases h⟩, hlist, ⟨trivial, fun _ h => by cases h⟩, trivial⟩

end Reads

end Verbatim
