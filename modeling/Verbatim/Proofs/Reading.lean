import Verbatim.Grammar
import Verbatim.Proofs.Draft

/-!
# What the grammar reads

A phrase is a piece of the grammar as data: a token, a placeholder, a choice by the next token, a
node with its parts, or one of the loops. `Reads goal p slots q` is the derivation of the slots
that are filled when the reader goes from `p` to `q`, with every way of recovering from an
error as a rule of its own. Markers, events and bounds on loops do not occur here; that the grammar
carries the derivation out is proved in `Proofs.Descent`, and what the tree of a text looks like is
proved by induction over derivations.
-/

namespace Verbatim

/-- A piece of the grammar. -/
inductive Phrase where
  /-- The next token, which has this kind. -/
  | token (kind : Kind)
  /-- A placeholder. -/
  | missing (kind : Kind)
  /-- An empty slot. -/
  | absent
  /-- One piece if the next token is in the set, and another if it is not. -/
  | either (first : KindSet) (there other : Phrase)
  /-- Pieces one after the other. -/
  | seq (parts : List Phrase)
  /-- A node around its parts. -/
  | node (kind : Kind) (parts : List Phrase)
  /-- At least one token, and all that follow up to one in the set, set aside. -/
  | stray (stop : KindSet)
  /-- What has to be set aside once the nesting limit was met. -/
  | recovery (stop : KindSet)
  /-- Operands joined by operators that bind tighter than a power. -/
  | operators (minPower : Nat)
  /-- An operand with the signs before it. -/
  | prefixed
  /-- The arguments of a call. -/
  | args
  /-- The parameters of a function. -/
  | params
  /-- The statements of a block. -/
  | stmts
  /-- The items of a file. -/
  | items

namespace Phrase

open Grammar in
section

/-- A token that has to be there. -/
def required (kind : Kind) : Phrase := either (.single kind) (token kind) (missing kind)

/-- The name of a type, or a placeholder for one. -/
def typeName : Phrase := either (.single .ident) (node .typeName [token .ident]) (missing .typeName)

/-- A mark and the type after it. -/
def typeAfter (mark kind : Kind) : Phrase := node kind [token mark, typeName]

/-- An expression. -/
def expr : Phrase := operators 0

/-- A number, a name or an expression in parentheses. -/
def primary : Phrase :=
  either (.single .intNumber) (node .literalExpr [token .intNumber])
    (either (.single .ident) (node .nameExpr [token .ident])
      (either (.single .lParen) (node .parenExpr [token .lParen, expr, required .rParen])
        (missing .missingExpr)))

/-- The arguments of a call with their parentheses. -/
def argClause : Phrase :=
  node .argClause [token .lParen, node .argList [args], required .rParen]

/-- The equals sign of a variable and its value. -/
def initializer : Phrase := node .initializerClause [token .eq, expr]

/-- A variable declaration. -/
def letDecl : Phrase :=
  node .letDecl [token .letKw, required .ident,
    either (.single .colon) (typeAfter .colon .typeAscription) absent,
    either (.single .eq) initializer absent]

/-- A return statement. -/
def returnStmt : Phrase := node .returnStmt [token .returnKw, either exprFirst expr absent]

/-- One statement of a block. -/
def stmt : Phrase :=
  either (.single .letKw) letDecl
    (either (.single .returnKw) returnStmt
      (either exprFirst (node .exprStmt [expr]) (stray stmtStop)))

/-- Statements between braces. -/
def codeBlock : Phrase :=
  node .codeBlock [token .lBrace, node .stmtList [stmts], required .rBrace]

/-- A slot for stray tokens. -/
def strayUntil (stop : KindSet) : Phrase := either (stop.union (.single .eof)) absent (stray stop)

/-- The parameters of a function with their parentheses. -/
def paramClause : Phrase :=
  node .paramClause [token .lParen, node .paramList [params], strayUntil rParenStop,
    required .rParen]

/-- A function declaration. -/
def funcDecl : Phrase :=
  node .funcDecl [token .funcKw, required .ident, strayUntil paramsStop,
    either (.single .lParen) paramClause (missing .paramClause),
    either (.single .arrow) (typeAfter .arrow .returnClause) absent,
    either (.single .lBrace) codeBlock (missing .codeBlock)]

/-- One item of a file. -/
def item : Phrase :=
  either (.single .funcKw) funcDecl (either (.single .letKw) letDecl (stray itemFirst))

end

/-- Whether every slot that a phrase can fill satisfies a condition, as far as the phrase tells; the
phrases that fill several slots, or none, never do. -/
def Yields (condition : Sketch → Prop) : Phrase → Prop
  | token kind => ∀ t : Token, t.kind = kind → condition (.token t)
  | missing kind => condition (.missing kind)
  | absent => condition .absent
  | either _ there other => there.Yields condition ∧ other.Yields condition
  | node kind _ => ∀ slots, condition (.node kind false slots)
  | stray _ => ∀ slots, condition (.node .unexpected false slots)
  | operators _ | prefixed => ∀ s, s.isExpr → condition s
  | seq _ | recovery _ | args | params | stmts | items => False

mutual
/-- Whether no expression can occur in a phrase, nor what is set aside after one. -/
def isPlain : Phrase → Bool
  | token _ | missing _ | absent | stray _ | params => true
  | either _ there other => there.isPlain && other.isPlain
  | seq parts | node _ parts => arePlain parts
  | operators _ | prefixed | args | recovery _ | stmts | items => false
/-- Whether no expression can occur in several phrases. -/
def arePlain : List Phrase → Bool
  | [] => true
  | x :: rest => x.isPlain && arePlain rest
end

/-- Everything that can stand first in an expression is an expression. -/
theorem yields_primary : primary.Yields fun s => s.isExpr := by
  refine ⟨fun _ => rfl, fun _ => rfl, fun _ => rfl, rfl⟩

end Phrase

/-- What is being read: a phrase, or what may still follow an operand or a callee. -/
inductive Goal where
  /-- A whole phrase. -/
  | phrase (phrase : Phrase)
  /-- The operators after an operand, with the levels entered for them so far. -/
  | links (minPower : Nat) (lhs : Sketch) (entered : Nat)
  /-- The calls after a callee, with the levels entered for them so far. -/
  | calls (callee : Sketch) (entered : Nat)

namespace Goal

instance : Coe Phrase Goal := ⟨phrase⟩

/-- What was read before and ends up in the slots. -/
def held : Goal → List Sketch
  | phrase _ => []
  | links _ lhs _ => [lhs]
  | calls callee _ => [callee]

/-- The nesting levels that were entered before and are left at the end. -/
def entered : Goal → Nat
  | phrase _ => 0
  | links _ _ n | calls _ n => n

/-- As `Phrase.Yields`, also for what may follow an operand or a callee. -/
def Yields (condition : Sketch → Prop) : Goal → Prop
  | phrase x => x.Yields condition
  | links _ lhs _ => condition lhs ∧ ∀ slots, condition (.node .binaryExpr true slots)
  | calls callee _ => condition callee ∧ ∀ slots, condition (.node .callExpr true slots)

end Goal

/-- Whether an argument starts here. -/
def Reader.atArgument (p : Reader) : Bool :=
  (p.next == .comma || Grammar.exprFirst.contains p.next) && !p.nesting.exhausted

/-- Whether something has to be set aside because the nesting limit was met. -/
def Reader.isStuck (p : Reader) (stop : KindSet) : Bool :=
  p.nesting.exhausted && !(p.next == .eof) && !stop.contains p.next

open Grammar Phrase in
/-- The slots that a phrase fills, and where it leaves the reader. -/
inductive Reads : Goal → Reader → List Sketch → Reader → Prop
  | token {t : Token} {rest : List Token} {n : Nesting} {kind : Kind} (h : t.kind = kind) :
    Reads (Phrase.token kind) ⟨t :: rest, n⟩ [.token t] ⟨rest, n⟩
  | missing {p : Reader} {kind : Kind} : Reads (Phrase.missing kind) p [.missing kind] p
  | absent {p : Reader} : Reads Phrase.absent p [.absent] p
  | there {first : KindSet} {x y : Phrase} {p q : Reader} {slots : List Sketch}
    (h : first.contains p.next = true) (hx : Reads x p slots q) :
    Reads (Phrase.either first x y) p slots q
  | other {first : KindSet} {x y : Phrase} {p q : Reader} {slots : List Sketch}
    (h : first.contains p.next = false) (hy : Reads y p slots q) :
    Reads (Phrase.either first x y) p slots q
  | nil {p : Reader} : Reads (Phrase.seq []) p [] p
  | cons {x : Phrase} {xs : List Phrase} {p q r : Reader} {slots more : List Sketch}
    (hx : Reads x p slots q) (hxs : Reads (Phrase.seq xs) q more r) :
    Reads (Phrase.seq (x :: xs)) p (slots ++ more) r
  | node {kind : Kind} {parts : List Phrase} {p q : Reader} {slots : List Sketch}
    (h : Reads (Phrase.seq parts) p slots q) :
    Reads (Phrase.node kind parts) p [.node kind false slots] q
  | stray {t : Token} {rest : List Token} {n : Nesting} {stop : KindSet} :
    Reads (Phrase.stray stop) ⟨t :: rest, n⟩
      [.node .unexpected false
        ((t :: rest.takeWhile fun u => !stop.contains u.kind).map Sketch.token)]
      ⟨rest.dropWhile fun u => !stop.contains u.kind, n⟩
  | calm {p : Reader} {stop : KindSet} (h : p.isStuck stop = false) :
    Reads (Phrase.recovery stop) p [] p.calm
  | rescue {p q : Reader} {stop : KindSet} {slots : List Sketch} (h : p.isStuck stop = true)
    (hs : Reads (Phrase.stray stop) p.calm slots q) : Reads (Phrase.recovery stop) p slots q
  | operators {m : Nat} {p q r : Reader} {first : Sketch} {slots : List Sketch}
    (hfirst : Reads Phrase.prefixed p [first] q) (hlinks : Reads (.links m first 0) q slots r) :
    Reads (Phrase.operators m) p slots r
  | linksDone {m k : Nat} {lhs : Sketch} {p : Reader}
    (h : ∀ power, bindingPower? p.next = some power → power ≤ m) :
    Reads (.links m lhs k) p [lhs] (p.leave k)
  | linkRefused {m k power : Nat} {lhs : Sketch} {p : Reader}
    (hpower : bindingPower? p.next = some power) (hm : m < power) (henter : p.enter.1 = false) :
    Reads (.links m lhs k) p [lhs] (p.enter.2.leave k)
  | link {m k power : Nat} {lhs rhs : Sketch} {t : Token} {rest : List Token} {n : Nesting}
    {q r : Reader} {slots : List Sketch}
    (hpower : bindingPower? t.kind = some power) (hm : m < power) (henter : n.enter.1 = true)
    (hrhs : Reads (Phrase.operators power) ⟨rest, n.enter.2⟩ [rhs] q)
    (hlinks : Reads (.links m (.node .binaryExpr true [lhs, .token t, rhs]) (k + 1)) q slots r) :
    Reads (.links m lhs k) ⟨t :: rest, n⟩ slots r
  | tooDeep {p : Reader} (henter : p.enter.1 = false) :
    Reads Phrase.prefixed p [.missing .missingExpr] p.enter.2
  | negated {t : Token} {rest : List Token} {n : Nesting} {operand : Sketch} {q : Reader}
    (henter : n.enter.1 = true) (hminus : t.kind = .minus)
    (hoperand : Reads Phrase.prefixed ⟨rest, n.enter.2⟩ [operand] q) :
    Reads Phrase.prefixed ⟨t :: rest, n⟩ [.node .prefixExpr false [.token t, operand]] (q.leave 1)
  | operand {p q r : Reader} {callee : Sketch} {slots : List Sketch}
    (henter : p.enter.1 = true) (hminus : p.next ≠ .minus)
    (hcallee : Reads primary p.enter.2 [callee] q) (hcalls : Reads (.calls callee 0) q slots r) :
    Reads Phrase.prefixed p slots (r.leave 1)
  | callsDone {k : Nat} {callee : Sketch} {p : Reader} (h : p.next ≠ .lParen) :
    Reads (.calls callee k) p [callee] (p.leave k)
  | callRefused {k : Nat} {callee : Sketch} {p : Reader} (h : p.next = .lParen)
    (henter : p.enter.1 = false) : Reads (.calls callee k) p [callee] (p.enter.2.leave k)
  | call {k : Nat} {callee clause : Sketch} {p q r : Reader} {slots : List Sketch}
    (h : p.next = .lParen) (henter : p.enter.1 = true)
    (hclause : Reads argClause p.enter.2 [clause] q)
    (hcalls : Reads (.calls (.node .callExpr true [callee, clause]) (k + 1)) q slots r) :
    Reads (.calls callee k) p slots r
  | argsDone {p : Reader} (h : p.atArgument = false) : Reads Phrase.args p [] p
  | argMore {p q : Reader} {slots more : List Sketch} {t : Token} {rest : List Token} {n : Nesting}
    (h : p.atArgument = true) (harg : Reads expr p slots ⟨t :: rest, n⟩) (hcomma : t.kind = .comma)
    (hmore : Reads Phrase.args ⟨rest, n⟩ more q) :
    Reads Phrase.args p (.node .arg false (slots ++ [.token t]) :: more) q
  | argLast {p q : Reader} {slots : List Sketch} (h : p.atArgument = true)
    (harg : Reads expr p slots q) (hcomma : q.next ≠ .comma) :
    Reads Phrase.args p [.node .arg false (slots ++ [.absent])] q
  | paramsDone {p : Reader} (h : p.next ≠ .ident) : Reads Phrase.params p [] p
  | paramMore {p q : Reader} {slots more : List Sketch} {t : Token} {rest : List Token}
    {n : Nesting}
    (hparam : Reads (Phrase.seq [.token .ident, required .colon, typeName]) p slots ⟨t :: rest, n⟩)
    (hcomma : t.kind = .comma) (hmore : Reads Phrase.params ⟨rest, n⟩ more q) :
    Reads Phrase.params p (.node .param false (slots ++ [.token t]) :: more) q
  | paramLast {p q : Reader} {slots : List Sketch}
    (hparam : Reads (Phrase.seq [.token .ident, required .colon, typeName]) p slots q)
    (hcomma : q.next ≠ .comma) : Reads Phrase.params p [.node .param false (slots ++ [.absent])] q
  | stmtsDone {p : Reader} (h : (p.next == .eof || blockEnd.contains p.next) = true) :
    Reads Phrase.stmts p [] p
  | stmtsMore {p q r : Reader} {slots more : List Sketch}
    (h : (p.next == .eof || blockEnd.contains p.next) = false)
    (hstmt : Reads (Phrase.seq [stmt, .recovery nestingStop]) p slots q)
    (hmore : Reads Phrase.stmts q more r) : Reads Phrase.stmts p (slots ++ more) r
  | itemsDone {p : Reader} (h : p.next = .eof) : Reads Phrase.items p [] p
  | itemsMore {p q r : Reader} {slots more : List Sketch} (h : p.next ≠ .eof)
    (hitem : Reads (Phrase.seq [item, .recovery itemFirst]) p slots q)
    (hmore : Reads Phrase.items q more r) : Reads Phrase.items p (slots ++ more) r

namespace Nesting

/-- A level is granted below the limit, unless the limit was met before. -/
theorem enter_eq_true_iff {n : Nesting} :
    n.enter.1 = true ↔ n.exhausted = false ∧ n.depth < maxNesting := by
  unfold enter
  split
  · simp_all
  · split
    · simp_all
    · simp_all

/-- A level that is granted makes the nesting deeper by one. -/
theorem depth_enter_of_granted {n : Nesting} (h : n.enter.1 = true) :
    n.enter.2.depth = n.depth + 1 := by
  revert h
  unfold enter
  split
  · simp
  · split <;> simp

/-- A level that is refused leaves the depth as it is. -/
theorem depth_enter_of_refused {n : Nesting} (h : n.enter.1 = false) :
    n.enter.2.depth = n.depth := by
  revert h
  unfold enter
  split
  · simp
  · split <;> simp

/-- A level that is refused leaves a note that the limit was met. -/
theorem exhausted_of_refused {n : Nesting} (h : n.enter.1 = false) :
    n.enter.2.exhausted = true := by
  revert h
  unfold enter
  split
  · simp_all
  · split <;> simp

/-- A level that is granted changes nothing but the depth. -/
theorem enter_of_granted {n : Nesting} (h : n.enter.1 = true) :
    n.enter.2.exhausted = false ∧ n.enter.2.refusals = n.refusals := by
  revert h
  unfold enter
  split
  · simp
  · split <;> simp_all

/-- A level that is refused is counted. -/
theorem refusals_of_refused {n : Nesting} (h : n.enter.1 = false) :
    n.enter.2.refusals = n.refusals + 1 := by
  revert h
  unfold enter
  split
  · simp
  · split <;> simp

/-- Levels are granted below the limit only. -/
theorem depth_lt_of_granted {n : Nesting} (h : n.enter.1 = true) : n.depth < maxNesting :=
  (enter_eq_true_iff.mp h).2

end Nesting

namespace Reads

variable {goal : Goal} {p q : Reader} {slots : List Sketch}

/-- No token is lost, doubled or moved: what the slots hold and what is left are what was there. -/
theorem tokensOf_append_rest (h : Reads goal p slots q) :
    Sketch.tokensOf slots ++ q.rest = Sketch.tokensOf goal.held ++ p.rest := by
  induction h with
  | token | missing | absent | nil => rfl
  | stray => simp [Sketch.tokensOf, Sketch.tokens, Goal.held]
  | _ => simp_all [Sketch.tokensOf, Sketch.tokens, Goal.held]

/-- A phrase leaves exactly the levels that were entered for it. -/
theorem depth_add_entered (h : Reads goal p slots q) (hp : goal.entered ≤ p.nesting.depth) :
    q.nesting.depth + goal.entered = p.nesting.depth := by
  induction h with
  | token | missing | absent | nil | stray | calm | linksDone | callsDone | argsDone | paramsDone
  | stmtsDone | itemsDone => simp_all [Goal.entered, Reader.leave, Reader.calm]
  | there _ _ ih | other _ _ ih | node _ ih | rescue _ _ ih | argLast _ _ _ ih
  | paramLast _ _ ih => simpa [Goal.entered, Reader.calm] using ih
  | cons _ _ ihx ihxs | operators _ _ ihx ihxs | argMore _ _ _ _ ihx ihxs
  | paramMore _ _ _ ihx ihxs | stmtsMore _ _ _ ihx ihxs | itemsMore _ _ _ ihx ihxs =>
    simp_all [Goal.entered]
  | tooDeep henter | linkRefused _ _ henter | callRefused _ henter =>
    have := Nesting.depth_enter_of_refused henter
    simp_all [Goal.entered, Reader.leave, Reader.enter]
  | link _ _ henter _ _ ihrhs ihlinks =>
    have := Nesting.depth_enter_of_granted henter
    simp only [Goal.entered] at *
    have := ihrhs (Nat.zero_le _)
    have := ihlinks (by omega)
    omega
  | call _ henter _ _ ihclause ihcalls =>
    have := Nesting.depth_enter_of_granted henter
    simp only [Goal.entered, Reader.enter] at *
    have := ihclause (Nat.zero_le _)
    have := ihcalls (by omega)
    omega
  | negated henter _ _ ih =>
    have := Nesting.depth_enter_of_granted henter
    simp only [Goal.entered, Reader.leave] at *
    have := ih (Nat.zero_le _)
    omega
  | operand henter _ _ _ ihcallee ihcalls =>
    have := Nesting.depth_enter_of_granted henter
    simp only [Goal.entered, Reader.leave, Reader.enter] at *
    have := ihcallee (Nat.zero_le _)
    have := ihcalls (Nat.zero_le _)
    omega

/-- A phrase that yields one slot fills one slot, and as it says. -/
theorem yields {condition : Sketch → Prop} (h : Reads goal p slots q)
    (hgoal : goal.Yields condition) : ∃ s, slots = [s] ∧ condition s := by
  induction h generalizing condition with
  | token ht => exact ⟨_, rfl, hgoal _ ht⟩
  | missing | absent => exact ⟨_, rfl, hgoal⟩
  | there _ _ ih => exact ih hgoal.1
  | other _ _ ih => exact ih hgoal.2
  | node _ _ | stray => exact ⟨_, rfl, hgoal _⟩
  | operators _ _ ihfirst ihlinks =>
    obtain ⟨s, hs, hexpr⟩ := @ihfirst (fun s => s.isExpr) fun _ hs => hs
    obtain rfl := List.singleton_inj.mp hs
    exact ihlinks ⟨hgoal _ hexpr, fun _ => hgoal _ rfl⟩
  | linksDone _ | linkRefused _ _ _ | callsDone _ | callRefused _ _ => exact ⟨_, rfl, hgoal.1⟩
  | link _ _ _ _ _ _ ihlinks => exact ihlinks ⟨hgoal.2 _, hgoal.2⟩
  | tooDeep _ | negated _ _ _ _ => exact ⟨_, rfl, hgoal _ rfl⟩
  | operand _ _ _ _ ihcallee ihcalls =>
    obtain ⟨s, hs, hexpr⟩ := ihcallee Phrase.yields_primary
    obtain rfl := List.singleton_inj.mp hs
    exact ihcalls ⟨hgoal _ hexpr, fun _ => hgoal _ rfl⟩
  | call _ _ _ _ _ ihcalls => exact ihcalls ⟨hgoal.2 _, hgoal.2⟩
  | nil | cons _ _ _ _ | calm _ | rescue _ _ _ | argsDone _ | argMore _ _ _ _ _ _
  | argLast _ _ _ _ | paramsDone _ | paramMore _ _ _ _ _ | paramLast _ _ _ | stmtsDone _
  | stmtsMore _ _ _ _ _
  | itemsDone _ | itemsMore _ _ _ _ _ => exact hgoal.elim

/-- What operators join is an expression. -/
theorem isExpr_of_operators {m : Nat} {s : Sketch} (h : Reads (Phrase.operators m) p [s] q) :
    s.isExpr = true := by
  obtain ⟨_, hs, hexpr⟩ := @yields _ _ _ _ (fun s => s.isExpr) h fun _ hs => hs
  exact List.singleton_inj.mp hs ▸ hexpr

/-- What signs stand before is an expression. -/
theorem isExpr_of_prefixed {s : Sketch} (h : Reads Phrase.prefixed p [s] q) : s.isExpr = true := by
  obtain ⟨_, hs, hexpr⟩ := @yields _ _ _ _ (fun s => s.isExpr) h fun _ hs => hs
  exact List.singleton_inj.mp hs ▸ hexpr

/-- Parts are read one after the other. -/
theorem seq_append {xs ys : List Phrase} {r : Reader} {more : List Sketch}
    (h : Reads (Phrase.seq xs) p slots q) (hys : Reads (Phrase.seq ys) q more r) :
    Reads (Phrase.seq (xs ++ ys)) p (slots ++ more) r := by
  induction xs generalizing p slots with
  | nil =>
    cases h
    exact hys
  | cons x xs ih =>
    cases h with
    | cons hx hxs =>
      rw [List.append_assoc]
      exact .cons hx (ih hxs)

/-- Reading goes forward only. -/
theorem rest_suffix (h : Reads goal p slots q) : q.rest <:+ p.rest := by
  induction h with
  | token => exact List.suffix_cons _ _
  | stray => exact (List.dropWhile_suffix _).trans (List.suffix_cons _ _)
  | missing | absent | nil | calm | linksDone | linkRefused | tooDeep | callsDone | callRefused
  | argsDone | paramsDone | stmtsDone | itemsDone => exact List.suffix_refl _
  | there _ _ ih | other _ _ ih | node _ ih | rescue _ _ ih | argLast _ _ _ ih
  | paramLast _ _ ih => exact ih
  | negated _ _ _ ih => exact ih.trans (List.suffix_cons _ _)
  | link _ _ _ _ _ ihrhs ihlinks => exact (ihlinks.trans ihrhs).trans (List.suffix_cons _ _)
  | cons _ _ ihx ihy | operators _ _ ihx ihy | operand _ _ _ _ ihx ihy | call _ _ _ _ ihx ihy
  | stmtsMore _ _ _ ihx ihy | itemsMore _ _ _ ihx ihy => exact ihy.trans ihx
  | argMore _ _ _ _ ihx ihy | paramMore _ _ _ ihx ihy =>
    exact (ihy.trans (List.suffix_cons _ _)).trans ihx

/-- A phrase without expressions does not touch the nesting. -/
theorem nesting_eq {x : Phrase} (h : Reads x p slots q) (hx : x.isPlain = true) :
    q.nesting = p.nesting := by
  obtain ⟨goal, hgoal⟩ : ∃ goal : Goal, goal = x := ⟨_, rfl⟩
  rw [← hgoal] at h
  induction h generalizing x with
  | token | missing | absent | nil | stray | paramsDone => rfl
  | there _ _ ih =>
    cases hgoal
    exact ih (Bool.and_eq_true_iff.mp hx).1 rfl
  | other _ _ ih =>
    cases hgoal
    exact ih (Bool.and_eq_true_iff.mp hx).2 rfl
  | node _ ih =>
    cases hgoal
    exact @ih (.seq _) hx rfl
  | cons _ _ ihx ihxs =>
    cases hgoal
    obtain ⟨hx, hxs⟩ := Bool.and_eq_true_iff.mp hx
    exact (@ihxs (.seq _) hxs rfl).trans (ihx hx rfl)
  | paramMore _ _ _ ihparam ihmore => exact (ihmore hx hgoal).trans (ihparam rfl rfl)
  | paramLast _ _ ih => exact ih rfl rfl
  | calm | rescue | operators | tooDeep | negated | operand | argsDone | argMore | argLast
  | stmtsDone | stmtsMore | itemsDone | itemsMore =>
    cases hgoal
    cases hx
  | linksDone | linkRefused | link | callsDone | callRefused | call => cases hgoal

/-- Recovery lets the grammar descend again. -/
theorem nesting_of_recovery {stop : KindSet} (h : Reads (Phrase.recovery stop) p slots q) :
    q.nesting = p.calm.nesting := by
  cases h with
  | calm => rfl
  | rescue _ hs => exact hs.nesting_eq rfl

/-- After a round of a loop the limit counts as not met. -/
theorem exhausted_of_round {x : Phrase} {stop : KindSet}
    (h : Reads (Phrase.seq [x, .recovery stop]) p slots q) : q.nesting.exhausted = false := by
  cases h with
  | cons _ hrest =>
    cases hrest with
    | cons hrecovery hnil =>
      cases hnil
      rw [hrecovery.nesting_of_recovery]
      rfl

end Reads

/-- The nesting is within the limit. -/
def Reader.Shallow (p : Reader) : Prop := p.nesting.depth ≤ maxNesting

/-- A reader as it occurs in a parse: the end of the text is not among the tokens, and the nesting
is within the limit. -/
structure Reader.Sound (p : Reader) : Prop where
  kind_ne_eof : ∀ t ∈ p.rest, t.kind ≠ .eof
  shallow : p.Shallow

end Verbatim
