import Verbatim.Proofs.Errors
import Verbatim.Proofs.EventCount
import Verbatim.Proofs.Language

/-!
# What is read without errors

A derivation without errors reads a word of the grammar. The nesting limit needs an argument: where
an operator or a call is refused, the expression ends without an error of its own, in front of a
token with which it could have gone on. Nothing else can go on there. Whatever the grammar wants
next is missing, or recovery sets the token aside, so there is an error after all.
-/

namespace Verbatim

namespace Reader

/-- The kinds of the tokens left. -/
def kinds (p : Reader) : List Kind := p.rest.map Token.kind

theorem kinds_cons (t : Token) (rest : List Token) (n : Nesting) :
    kinds ⟨t :: rest, n⟩ = t.kind :: kinds ⟨rest, n⟩ := rfl

/-- The next kind is the first of the kinds to come. -/
theorem next_eq_first (p : Reader) : p.next = Kind.first p.kinds := by
  obtain ⟨rest, n⟩ := p
  cases rest <;> rfl

/-- The limit was met in front of a token with which an expression could have gone on. -/
structure Halted (p : Reader) : Prop where
  exhausted : p.nesting.exhausted = true
  next_mem : p.next ∈ Kind.continuing

/-- No expression goes on with a comma. -/
theorem not_halted_of_comma {t : Token} {rest : List Token} {n : Nesting} (h : t.kind = .comma) :
    ¬ Halted ⟨t :: rest, n⟩ := by
  intro hhalted
  have hmem : t.kind ∈ Kind.continuing := hhalted.next_mem
  rw [h] at hmem
  exact absurd hmem (by decide)

/-- How a phrase without errors leaves the reader: no level was refused, or the limit was met at the
end of an expression. -/
def Keeps (p q : Reader) (endsOpen : Bool) : Prop :=
  q.nesting.exhausted = false ∧ q.nesting.refusals = p.nesting.refusals ∨
    endsOpen = true ∧ q.Halted

/-- What is known of the nesting may be weakened. -/
theorem Keeps.mono {p q : Reader} {a b : Bool} (h : p.Keeps q a) (hab : a = true → b = true) :
    p.Keeps q b :=
  h.imp_right fun h => ⟨hab h.1, h.2⟩

/-- If the end is not left open, the limit was not met. -/
theorem Keeps.steady {p q : Reader} {endsOpen : Bool} (h : p.Keeps q endsOpen)
    (hopen : endsOpen = false) :
    q.nesting.exhausted = false ∧ q.nesting.refusals = p.nesting.refusals :=
  h.resolve_right fun h => by simp [hopen] at h

/-- Refusals that stayed the same before change nothing about what is kept after. -/
theorem Keeps.of_refusals_eq {p q r : Reader} {endsOpen : Bool} (h : q.Keeps r endsOpen)
    (hq : q.nesting.refusals = p.nesting.refusals) : p.Keeps r endsOpen :=
  h.imp_left fun h => ⟨h.1, h.2.trans hq⟩

/-- What is read piece by piece is read in one. -/
theorem kinds_append {p q r : Reader} {w w' : List Kind} (hw : p.kinds = w ++ q.kinds)
    (hw' : q.kinds = w' ++ r.kinds) : p.kinds = w ++ w' ++ r.kinds := by
  rw [hw, hw', List.append_assoc]

end Reader

namespace Phrase

mutual
/-- The words that a phrase reads without errors. -/
def Spells : Phrase → List Kind → Prop
  | token kind, w => w = [kind]
  | missing _, _ | stray _, _ => False
  | absent, w | recovery _, w => w = []
  | either _ there other, w => there.Spells w ∨ other.Spells w
  | seq parts, w | node _ parts, w => SpellAll parts w
  | operators _, w | prefixed, w => Word .expr w
  | args, w => Word .args w
  | params, w => Word .params w
  | stmts, w => Word .stmts w
  | items, w => Word .items w
/-- The words that phrases read one after the other. -/
def SpellAll : List Phrase → List Kind → Prop
  | [], w => w = []
  | x :: rest, w => ∃ a b, w = a ++ b ∧ x.Spells a ∧ SpellAll rest b
end

mutual
/-- Whether a phrase can end with an expression. -/
def endsOpen : Phrase → Bool
  | operators _ | prefixed | args => true
  | either _ there other => there.endsOpen || other.endsOpen
  | seq parts | node _ parts => endOpen parts
  | token _ | missing _ | absent | stray _ | recovery _ | params | stmts | items => false
/-- Whether the last of several phrases can end with an expression. -/
def endOpen : List Phrase → Bool
  | [] => false
  | x :: rest => if rest.isEmpty then x.endsOpen else endOpen rest
end

/-- Whether a phrase has an error in front of every token with which an expression goes on, once the
limit was met. -/
def blocks : Phrase → Bool
  | token kind => !Kind.continuing.contains kind
  | missing _ => true
  | either first there other =>
    (there.blocks || Kind.continuing.all fun k => !first.contains k) &&
      (other.blocks || Kind.continuing.all first.contains)
  | recovery stop => Kind.continuing.all fun k => !stop.contains k
  | absent | seq _ | node _ _ | stray _ | operators _ | prefixed | args | params | stmts
  | items => false

mutual
/-- Whether everything in a phrase that can end with an expression is last or followed by something
that blocks. -/
def isGuarded : Phrase → Bool
  | either _ there other => there.isGuarded && other.isGuarded
  | seq parts | node _ parts => areGuarded parts
  | token _ | missing _ | absent | stray _ | recovery _ | operators _ | prefixed | args | params
  | stmts | items => true
/-- As `isGuarded`, for phrases one after the other. -/
def areGuarded : List Phrase → Bool
  | [] => true
  | x :: rest => x.isGuarded && areGuarded rest && (!x.endsOpen || rest.head?.all blocks)
end

/-- Phrases end openly if the last of them do. -/
theorem endOpen_cons {x : Phrase} {rest : List Phrase} (h : endOpen rest = true) :
    endOpen (x :: rest) = true := by
  cases rest with
  | nil => cases h
  | cons y rest => exact h

variable {w : List Kind}

/-- A required token that is not missing is read. -/
theorem eq_of_required {kind : Kind} (h : (required kind).Spells w) : w = [kind] :=
  h.elim id False.elim

/-- A type is spelled by its name. -/
theorem eq_of_typeName (h : typeName.Spells w) : w = [.ident] := by
  rcases h with ⟨a, b, rfl, rfl, rfl⟩ | h
  · rfl
  · exact h.elim

/-- A type after a mark is spelled by both, or by nothing if it is left out. -/
theorem word_of_typeAfter {first : KindSet} {mark kind : Kind}
    (h : (either first (typeAfter mark kind) absent).Spells w) : Word (.typeAfter mark) w := by
  rcases h with ⟨_, _, rfl, rfl, _, _, rfl, htype, rfl⟩ | rfl
  · rw [eq_of_typeName htype]
    exact .someType
  · exact .noType

/-- A declaration is spelled as the grammar says. -/
theorem word_of_letDecl (h : letDecl.Spells w) : Word .letDecl w := by
  obtain ⟨_, _, rfl, rfl, _, _, rfl, hname, t, _, rfl, ht, v, _, rfl, hv, rfl⟩ := h
  have hvalue : Word .value v := by
    rcases hv with ⟨_, _, rfl, rfl, _, _, rfl, he, rfl⟩ | rfl
    · rw [List.append_nil]
      exact .someValue he
    · exact .noValue
  have hword := Word.letDecl (word_of_typeAfter ht) hvalue
  rw [eq_of_required hname, List.append_nil]
  exact hword

/-- A statement is spelled as the grammar says. -/
theorem word_of_stmt (h : stmt.Spells w) : Word .stmt w := by
  rcases h with h | ⟨_, _, rfl, rfl, v, _, rfl, hv, rfl⟩ | ⟨e, _, rfl, he, rfl⟩ | h
  · exact .letStmt (word_of_letDecl h)
  · rw [List.append_nil]
    rcases hv with he | rfl
    · exact .valueReturn he
    · exact .bareReturn
  · rw [List.append_nil]
    exact .exprStmt he
  · exact h.elim

/-- A block is spelled as the grammar says. -/
theorem word_of_codeBlock (h : codeBlock.Spells w) : Word .block w := by
  obtain ⟨_, _, rfl, rfl, _, _, rfl, ⟨s, _, rfl, hs, rfl⟩, _, _, rfl, hbrace, rfl⟩ := h
  rw [eq_of_required hbrace, List.append_nil, List.append_nil]
  exact .block hs

/-- Where there are no errors nothing is set aside. -/
theorem eq_nil_of_strayUntil {stop : KindSet} (h : (strayUntil stop).Spells w) : w = [] :=
  h.elim id False.elim

/-- A function is spelled as the grammar says. -/
theorem word_of_funcDecl (h : funcDecl.Spells w) : Word .func w := by
  obtain ⟨_, _, rfl, rfl, _, _, rfl, hname, _, _, rfl, hstray, c, _, rfl, hclause, r, _, rfl, hr,
    b, _, rfl, hb, rfl⟩ := h
  have hblock : Word .block b := hb.elim word_of_codeBlock False.elim
  obtain ⟨ps, rfl, hps⟩ : ∃ ps, c = .lParen :: (ps ++ [.rParen]) ∧ Word .params ps := by
    rcases hclause with hclause | hclause
    · obtain ⟨_, _, rfl, rfl, _, _, rfl, ⟨ps, _, rfl, hps, rfl⟩, _, _, rfl, hstray, _, _, rfl,
        hparen, rfl⟩ := hclause
      refine ⟨ps, ?_, hps⟩
      rw [eq_of_required hparen, eq_nil_of_strayUntil hstray, List.append_nil]
      rfl
    · exact hclause.elim
  rw [eq_of_required hname, eq_nil_of_strayUntil hstray]
  simpa using Word.func hps (word_of_typeAfter hr) hblock

/-- An item may be put before the items after it. -/
theorem word_of_item (h : item.Spells w) {u : List Kind} (hu : Word .items u) :
    Word .items (w ++ u) := by
  rcases h with h | h | h
  · exact .funcItem (word_of_funcDecl h) hu
  · exact .letItem (word_of_letDecl h) hu
  · exact h.elim

/-- A parameter is spelled as the grammar says. -/
theorem word_of_parameter (h : (seq [.token .ident, required .colon, typeName]).Spells w) :
    Word .param w := by
  obtain ⟨_, _, rfl, rfl, _, _, rfl, hcolon, _, _, rfl, htype, rfl⟩ := h
  rw [eq_of_required hcolon, eq_of_typeName htype]
  exact .param

/-- Without errors, recovery reads nothing. -/
theorem spells_of_recovery {x : Phrase} {stop : KindSet} (h : (seq [x, .recovery stop]).Spells w) :
    x.Spells w := by
  obtain ⟨a, _, rfl, ha, _, _, rfl, rfl, rfl⟩ := h
  simpa using ha

/-- An operand is spelled as an expression. -/
theorem word_of_primary (h : primary.Spells w) : Word .expr w := by
  rcases h with ⟨_, _, rfl, rfl, rfl⟩ | ⟨_, _, rfl, rfl, rfl⟩ |
    ⟨_, _, rfl, rfl, e, _, rfl, he, _, _, rfl, hparen, rfl⟩ | h
  · exact .number
  · exact .name
  · rw [eq_of_required hparen]
    exact .paren he
  · exact h.elim

/-- Arguments after an expression make up a call. -/
theorem word_of_argClause (h : argClause.Spells w) {f : List Kind} (hf : Word .expr f) :
    Word .expr (f ++ w) := by
  obtain ⟨_, _, rfl, rfl, _, _, rfl, ⟨as, _, rfl, has, rfl⟩, _, _, rfl, hparen, rfl⟩ := h
  rw [eq_of_required hparen, List.append_nil]
  exact .call hf has

end Phrase

namespace Goal

/-- As `Phrase.Spells`; what follows an operand or a callee makes a longer expression of it. -/
def Spells : Goal → List Kind → Prop
  | phrase x, w => x.Spells w
  | links .., w | calls .., w => ∀ e, Word .expr e → Word .expr (e ++ w)

/-- As `Phrase.endsOpen`. -/
def endsOpen : Goal → Bool
  | phrase x => x.endsOpen
  | links .. | calls .. => true

/-- As `Phrase.isGuarded`. -/
def isGuarded : Goal → Bool
  | phrase x => x.isGuarded
  | links .. | calls .. => true

end Goal

/-- Only the four operators bind. -/
theorem Grammar.mem_operators_of_bindingPower {kind : Kind} {power : Nat}
    (h : bindingPower? kind = some power) : kind ∈ [Kind.plus, .minus, .star, .slash] := by
  cases kind <;> first | decide | cases h

/-- An expression goes on with an operator. -/
theorem Grammar.mem_continuing_of_bindingPower {kind : Kind} {power : Nat}
    (h : bindingPower? kind = some power) : kind ∈ Kind.continuing :=
  List.mem_cons_of_mem _ (mem_operators_of_bindingPower h)

/-- A member of a list without errors has none before its comma, and none come after it. -/
theorem Sketch.anyError_of_member {kind : Kind} {late : Bool} {slots last more : List Sketch}
    (h : anyError (.node kind late (slots ++ last) :: more) = false) :
    anyError slots = false ∧ anyError more = false := by
  simp only [anyError, hasError, anyError_append, Bool.or_eq_false_iff] at h
  exact ⟨h.1.2.1, h.2⟩

/-- A goal reads a word, and no level is refused on the way unless it ends with an expression that
could have gone on. -/
def Goal.Covers (goal : Goal) (p q : Reader) : Prop :=
  ∃ w, p.kinds = w ++ q.kinds ∧ goal.Spells w ∧ p.Keeps q goal.endsOpen

namespace Reads

variable {goal : Goal} {p q r : Reader} {slots more : List Sketch}

/-- What is set aside is an error. -/
theorem anyError_of_stray {stop : KindSet} (h : Reads (Phrase.stray stop) p slots q) :
    Sketch.anyError slots = true := by
  cases h
  rfl

/-- A phrase that blocks has an error where the limit was met. -/
theorem anyError_of_blocks {x : Phrase} {p q : Reader} {slots : List Sketch}
    (hx : x.blocks = true) (h : Reads x p slots q) (hp : p.Halted) :
    Sketch.anyError slots = true := by
  match x, h with
  | .token kind, .token ht =>
    have hmem := hp.next_mem
    rw [Reader.next_cons, ht] at hmem
    simp [Phrase.blocks, hmem] at hx
  | .missing kind, .missing => rfl
  | .either first x y, .there hfirst h =>
    simp only [Phrase.blocks, Bool.and_eq_true, Bool.or_eq_true, List.all_eq_true] at hx
    rcases hx.1 with hx | hnone
    · exact anyError_of_blocks hx h hp
    · have hnot := hnone _ hp.next_mem
      simp [hfirst] at hnot
  | .either first x y, .other hfirst h =>
    simp only [Phrase.blocks, Bool.and_eq_true, Bool.or_eq_true, List.all_eq_true] at hx
    rcases hx.2 with hy | hall
    · exact anyError_of_blocks hy h hp
    · have hin := hall _ hp.next_mem
      simp [hfirst] at hin
  | .recovery stop, .calm hcalm =>
    simp only [Phrase.blocks, List.all_eq_true] at hx
    have hstop := hx _ hp.next_mem
    have hne : (p.next == .eof) = false := beq_eq_false_iff_ne.mpr fun heof => by
      have hmem := hp.next_mem
      rw [heof] at hmem
      exact absurd hmem (by decide)
    rw [Reader.isStuck, hp.exhausted, hne, hstop] at hcalm
    cases hcalm
  | .recovery stop, .rescue _ hs => exact hs.anyError_of_stray

/-- What was held before an operand or a callee went on has no error if the whole has none. -/
theorem anyError_held (h : Reads goal p slots q) (hclean : Sketch.anyError slots = false) :
    Sketch.anyError goal.held = false := by
  induction h with
  | linksDone _ | linkRefused _ _ _ | callsDone _ | callRefused _ _ => exact hclean
  | link _ _ _ _ _ _ ih | call _ _ _ _ _ ih =>
    have hnode := ih hclean
    simp only [Goal.held, Sketch.anyError, Sketch.hasError, Bool.or_eq_false_iff] at hnode ⊢
    exact ⟨hnode.1.2.1, trivial⟩
  | _ => rfl

/-- Once the limit was met, the operators after an operand are left alone. -/
theorem halted_of_links {m k : Nat} {lhs : Sketch} (h : Reads (.links m lhs k) p slots q)
    (hp : p.Halted) : p.kinds = q.kinds ∧ q.Halted := by
  obtain ⟨-, hrest, hexhausted⟩ := h.of_links_exhausted hp.exhausted
  refine ⟨?_, hexhausted, Reader.next_of_rest_eq hrest ▸ hp.next_mem⟩
  rw [Reader.kinds, Reader.kinds, hrest]

/-- The operators after an operand go on with it, also if the limit was met there. -/
theorem longer_of_links {m k : Nat} {lhs : Sketch} {w : List Kind} (hw : p.kinds = w ++ q.kinds)
    (hkeeps : p.Keeps q true) (hlinks : Reads (.links m lhs k) q slots r)
    (ih : q.nesting.exhausted = false → (Goal.links m lhs k).Covers q r) :
    ∃ w', p.kinds = w ++ w' ++ r.kinds ∧ (∀ e, Word .expr e → Word .expr (e ++ w')) ∧
      p.Keeps r true := by
  rcases hkeeps with ⟨hq, hrefusals⟩ | ⟨-, hhalted⟩
  · obtain ⟨w', hw', hspells, hkeeps'⟩ := ih hq
    exact ⟨w', Reader.kinds_append hw hw', hspells, hkeeps'.of_refusals_eq hrefusals⟩
  · obtain ⟨hkinds, hhalted'⟩ := hlinks.halted_of_links hhalted
    refine ⟨[], ?_, fun e he => by rwa [List.append_nil], .inr ⟨rfl, hhalted'⟩⟩
    rw [hw, hkinds, List.append_nil]

/-- What follows a phrase that ended open blocks, so the phrase is last or no level was refused. -/
theorem covers_cons {x : Phrase} {xs : List Phrase} (hx : (Goal.phrase x).Covers p q)
    (hxs : Reads (Phrase.seq xs) q more r) (hclean : Sketch.anyError more = false)
    (hnext : (!x.endsOpen || xs.head?.all Phrase.blocks) = true)
    (ih : q.nesting.exhausted = false → (Goal.phrase (.seq xs)).Covers q r) :
    (Goal.phrase (.seq (x :: xs))).Covers p r := by
  obtain ⟨w, hw, hspells, ⟨hq, hrefusals⟩ | ⟨hopen, hhalted⟩⟩ := hx
  · obtain ⟨w', hw', hspells', hkeeps⟩ := ih hq
    exact ⟨w ++ w', Reader.kinds_append hw hw', ⟨w, w', rfl, hspells, hspells'⟩,
      (hkeeps.mono Phrase.endOpen_cons).of_refusals_eq hrefusals⟩
  · cases hxs with
    | nil =>
      exact ⟨w, hw, ⟨w, [], (List.append_nil w).symm, hspells, rfl⟩, .inr ⟨hopen, hhalted⟩⟩
    | @cons y _ _ _ _ _ _ hy _ =>
      have hblocks : y.blocks = true := by
        rw [show x.endsOpen = true from hopen] at hnext
        exact hnext
      rw [Sketch.anyError_append, hy.anyError_of_blocks hblocks hhalted] at hclean
      cases hclean

/-- A derivation without errors reads a word, and no level was refused on the way unless it ends
with an expression that could have gone on. -/
theorem covers (h : Reads goal p slots q) (hgoal : goal.isGuarded = true)
    (hclean : Sketch.anyError slots = false) (hp : p.nesting.exhausted = false) :
    goal.Covers p q := by
  induction h with
  | token ht => exact ⟨[_], by simp [Reader.kinds, ht], rfl, .inl ⟨hp, rfl⟩⟩
  | missing | tooDeep _ | stray => cases hclean
  | absent | nil => exact ⟨[], rfl, rfl, .inl ⟨hp, rfl⟩⟩
  | there _ _ ih =>
    obtain ⟨w, hw, hspells, hkeeps⟩ := ih (Bool.and_eq_true_iff.mp hgoal).1 hclean hp
    exact ⟨w, hw, .inl hspells, hkeeps.mono fun hopen => Bool.or_eq_true_iff.mpr (.inl hopen)⟩
  | other _ _ ih =>
    obtain ⟨w, hw, hspells, hkeeps⟩ := ih (Bool.and_eq_true_iff.mp hgoal).2 hclean hp
    exact ⟨w, hw, .inr hspells, hkeeps.mono fun hopen => Bool.or_eq_true_iff.mpr (.inr hopen)⟩
  | cons _ hxs ihx ihxs =>
    simp only [Goal.isGuarded, Phrase.isGuarded, Phrase.areGuarded, Bool.and_eq_true] at hgoal
    obtain ⟨⟨hguard, hguards⟩, hnext⟩ := hgoal
    rw [Sketch.anyError_append, Bool.or_eq_false_iff] at hclean
    exact covers_cons (ihx hguard hclean.1 hp) hxs hclean.2 hnext (ihxs hguards hclean.2)
  | node _ ih =>
    simp only [Sketch.anyError, Sketch.hasError, Bool.or_false, Bool.or_eq_false_iff] at hclean
    exact ih hgoal hclean.2 hp
  | calm _ => exact ⟨[], rfl, rfl, .inl ⟨rfl, rfl⟩⟩
  | rescue _ hs _ =>
    rw [hs.anyError_of_stray] at hclean
    cases hclean
  | operators hfirst hlinks ihfirst ihlinks =>
    obtain ⟨w, hw, hspells, hkeeps⟩ := ihfirst rfl (hlinks.anyError_held hclean) hp
    obtain ⟨w', hw', hlonger, hkeeps'⟩ := longer_of_links hw hkeeps hlinks (ihlinks rfl hclean)
    exact ⟨w ++ w', hw', hlonger w hspells, hkeeps'⟩
  | linksDone _ => exact ⟨[], rfl, fun e he => by rwa [List.append_nil], .inl ⟨hp, rfl⟩⟩
  | linkRefused hpower _ henter =>
    refine ⟨[], rfl, fun e he => by rwa [List.append_nil], .inr ⟨rfl, ?_, ?_⟩⟩
    · exact Nesting.exhausted_of_refused henter
    · exact Grammar.mem_continuing_of_bindingPower hpower
  | @link m k power lhs rhs t rest n q r slots hpower _ henter hrhs hlinks ihrhs ihlinks =>
    have hrhsclean : Sketch.anyError [rhs] = false := by
      have hheld := hlinks.anyError_held hclean
      simp only [Goal.held, Sketch.anyError, Sketch.hasError, Bool.or_eq_false_iff] at hheld ⊢
      exact hheld.1.2.2.2
    obtain ⟨hgranted, hn⟩ := Nesting.enter_of_granted henter
    obtain ⟨w, hw, hspells, hkeeps⟩ := ihrhs rfl hrhsclean hgranted
    have hkinds : (⟨t :: rest, n⟩ : Reader).kinds = t.kind :: w ++ q.kinds :=
      congrArg (t.kind :: ·) hw
    obtain ⟨w', hw', hlonger, hkeeps'⟩ :=
      longer_of_links hkinds (hkeeps.of_refusals_eq hn) hlinks (ihlinks rfl hclean)
    refine ⟨t.kind :: w ++ w', hw', fun e he => ?_, hkeeps'⟩
    rw [← List.append_assoc]
    exact hlonger _ (.binary he (Grammar.mem_operators_of_bindingPower hpower) hspells)
  | @negated t rest n operand q henter hminus _ ih =>
    simp only [Sketch.anyError, Sketch.hasError, Bool.or_eq_false_iff] at hclean
    obtain ⟨hgranted, hn⟩ := Nesting.enter_of_granted henter
    obtain ⟨w, hw, hspells, hkeeps⟩ :=
      ih rfl (by simpa [Sketch.anyError] using hclean.1.2.2.1) hgranted
    have hkinds : (⟨t :: rest, n⟩ : Reader).kinds = .minus :: w ++ q.kinds :=
      hminus ▸ congrArg (t.kind :: ·) hw
    refine ⟨.minus :: w, hkinds, .negated hspells, ?_⟩
    exact hkeeps.imp (fun h => ⟨h.1, h.2.trans hn⟩) fun h => ⟨rfl, h.2.exhausted, h.2.next_mem⟩
  | operand henter _ hcallee hcalls ihcallee ihcalls =>
    obtain ⟨hgranted, hn⟩ := Nesting.enter_of_granted henter
    obtain ⟨w, hw, hspells, hkeeps⟩ := ihcallee rfl (hcalls.anyError_held hclean) hgranted
    obtain ⟨hq, hrefusals⟩ := hkeeps.steady rfl
    obtain ⟨w', hw', hspells', hkeeps'⟩ := ihcalls rfl hclean hq
    refine ⟨w ++ w', Reader.kinds_append hw hw', hspells' w (Phrase.word_of_primary hspells), ?_⟩
    exact (hkeeps'.of_refusals_eq (hrefusals.trans hn)).imp_right
      fun h => ⟨rfl, h.2.exhausted, h.2.next_mem⟩
  | callsDone _ => exact ⟨[], rfl, fun e he => by rwa [List.append_nil], .inl ⟨hp, rfl⟩⟩
  | callRefused hnext henter =>
    refine ⟨[], rfl, fun e he => by rwa [List.append_nil], .inr ⟨rfl, ?_, ?_⟩⟩
    · exact Nesting.exhausted_of_refused henter
    · rw [Reader.next_leave, Reader.next_enter, hnext]
      decide
  | @call k callee clause p q r slots _ henter _ hcalls ihclause ihcalls =>
    have hclause : Sketch.anyError [clause] = false := by
      have hheld := hcalls.anyError_held hclean
      simp only [Goal.held, Sketch.anyError, Sketch.hasError, Bool.or_eq_false_iff] at hheld ⊢
      exact hheld.1.2.2
    obtain ⟨hgranted, hn⟩ := Nesting.enter_of_granted henter
    obtain ⟨w, hw, hspells, hkeeps⟩ := ihclause rfl hclause hgranted
    obtain ⟨hq, hrefusals⟩ := hkeeps.steady rfl
    obtain ⟨w', hw', hspells', hkeeps'⟩ := ihcalls rfl hclean hq
    refine ⟨w ++ w', Reader.kinds_append hw hw', fun e he => ?_,
      hkeeps'.of_refusals_eq (hrefusals.trans hn)⟩
    rw [← List.append_assoc]
    exact hspells' _ (Phrase.word_of_argClause hspells he)
  | argsDone _ => exact ⟨[], rfl, .noArgs, .inl ⟨hp, rfl⟩⟩
  | argMore _ _ hcomma _ iharg ihmore =>
    obtain ⟨hslots, hmore⟩ := Sketch.anyError_of_member hclean
    obtain ⟨w, hw, hspells, hkeeps⟩ := iharg rfl hslots hp
    obtain ⟨hq, hrefusals⟩ := hkeeps.resolve_right fun h => Reader.not_halted_of_comma hcomma h.2
    obtain ⟨w', hw', hspells', hkeeps'⟩ := ihmore rfl hmore hq
    refine ⟨w ++ .comma :: w', ?_, .moreArgs hspells hspells', hkeeps'.of_refusals_eq hrefusals⟩
    rw [hw, Reader.kinds_cons, hcomma, hw']
    simp
  | argLast _ _ _ iharg =>
    obtain ⟨w, hw, hspells, hkeeps⟩ := iharg rfl (Sketch.anyError_of_member hclean).1 hp
    exact ⟨w, hw, .oneArg hspells, hkeeps⟩
  | paramsDone _ => exact ⟨[], rfl, .noParams, .inl ⟨hp, rfl⟩⟩
  | paramMore _ hcomma _ ihparam ihmore =>
    obtain ⟨hslots, hmore⟩ := Sketch.anyError_of_member hclean
    obtain ⟨w, hw, hspells, hkeeps⟩ := ihparam rfl hslots hp
    obtain ⟨hq, hrefusals⟩ := hkeeps.steady rfl
    obtain ⟨w', hw', hspells', hkeeps'⟩ := ihmore rfl hmore hq
    refine ⟨w ++ .comma :: w', ?_, .moreParams (Phrase.word_of_parameter hspells) hspells',
      hkeeps'.of_refusals_eq hrefusals⟩
    rw [hw, Reader.kinds_cons, hcomma, hw']
    simp
  | paramLast _ _ ihparam =>
    obtain ⟨w, hw, hspells, hkeeps⟩ := ihparam rfl (Sketch.anyError_of_member hclean).1 hp
    exact ⟨w, hw, .oneParam (Phrase.word_of_parameter hspells), hkeeps⟩
  | stmtsDone _ => exact ⟨[], rfl, .noStmts, .inl ⟨hp, rfl⟩⟩
  | stmtsMore _ _ _ ihstmt ihmore =>
    rw [Sketch.anyError_append, Bool.or_eq_false_iff] at hclean
    obtain ⟨w, hw, hspells, hkeeps⟩ := ihstmt rfl hclean.1 hp
    obtain ⟨hq, hrefusals⟩ := hkeeps.steady rfl
    obtain ⟨w', hw', hspells', hkeeps'⟩ := ihmore rfl hclean.2 hq
    have hstmt := Phrase.word_of_stmt (Phrase.spells_of_recovery hspells)
    exact ⟨w ++ w', Reader.kinds_append hw hw', .moreStmts hstmt hspells',
      hkeeps'.of_refusals_eq hrefusals⟩
  | itemsDone _ => exact ⟨[], rfl, .noItems, .inl ⟨hp, rfl⟩⟩
  | itemsMore _ _ _ ihitem ihmore =>
    rw [Sketch.anyError_append, Bool.or_eq_false_iff] at hclean
    obtain ⟨w, hw, hspells, hkeeps⟩ := ihitem rfl hclean.1 hp
    obtain ⟨hq, hrefusals⟩ := hkeeps.steady rfl
    obtain ⟨w', hw', hspells', hkeeps'⟩ := ihmore rfl hclean.2 hq
    have hwords := Phrase.word_of_item (Phrase.spells_of_recovery hspells) hspells'
    exact ⟨w ++ w', Reader.kinds_append hw hw', hwords, hkeeps'.of_refusals_eq hrefusals⟩

end Reads

end Verbatim
