import Verbatim.Grammar

/-!
# The language of the grammar

The words of the grammar as sequences of token kinds. The grammar is ambiguous in two ways.
Operators can be grouped as one likes, which does not matter for the words; an expression can be
written as a row of operands with operators between them. And nothing separates two statements, so a
statement that starts with a parenthesis or a sign can be read as the continuation of the one before
it. Every row of statements has a reading in which each statement is as long as it can be.
-/

namespace Verbatim

/-- The nonterminals of the grammar. -/
inductive Symbol where
  | file | items | func | params | param | typeAfter (mark : Kind) | letDecl | value
  | block | stmts | stmt | expr | args

/-- The words that a nonterminal stands for. -/
inductive Word : Symbol → List Kind → Prop
  | file {w : List Kind} (h : Word .items w) : Word .file (w ++ [.eof])
  | noItems : Word .items []
  | funcItem {f w : List Kind} (hf : Word .func f) (hw : Word .items w) : Word .items (f ++ w)
  | letItem {l w : List Kind} (hl : Word .letDecl l) (hw : Word .items w) : Word .items (l ++ w)
  | func {ps r b : List Kind} (hps : Word .params ps) (hr : Word (.typeAfter .arrow) r)
    (hb : Word .block b) :
    Word .func (.funcKw :: .ident :: .lParen :: (ps ++ .rParen :: (r ++ b)))
  | noParams : Word .params []
  | oneParam {p : List Kind} (hp : Word .param p) : Word .params p
  | moreParams {p ps : List Kind} (hp : Word .param p) (hps : Word .params ps) :
    Word .params (p ++ .comma :: ps)
  | param : Word .param [.ident, .colon, .ident]
  | noType {mark : Kind} : Word (.typeAfter mark) []
  | someType {mark : Kind} : Word (.typeAfter mark) [mark, .ident]
  | letDecl {t v : List Kind} (ht : Word (.typeAfter .colon) t) (hv : Word .value v) :
    Word .letDecl (.letKw :: .ident :: (t ++ v))
  | noValue : Word .value []
  | someValue {e : List Kind} (he : Word .expr e) : Word .value (.eq :: e)
  | block {w : List Kind} (hw : Word .stmts w) : Word .block (.lBrace :: (w ++ [.rBrace]))
  | noStmts : Word .stmts []
  | moreStmts {s w : List Kind} (hs : Word .stmt s) (hw : Word .stmts w) : Word .stmts (s ++ w)
  | letStmt {l : List Kind} (hl : Word .letDecl l) : Word .stmt l
  | bareReturn : Word .stmt [.returnKw]
  | valueReturn {e : List Kind} (he : Word .expr e) : Word .stmt (.returnKw :: e)
  | exprStmt {e : List Kind} (he : Word .expr e) : Word .stmt e
  | number : Word .expr [.intNumber]
  | name : Word .expr [.ident]
  | paren {e : List Kind} (he : Word .expr e) : Word .expr (.lParen :: (e ++ [.rParen]))
  | negated {e : List Kind} (he : Word .expr e) : Word .expr (.minus :: e)
  | binary {a b : List Kind} {op : Kind} (ha : Word .expr a)
    (hop : op ∈ [Kind.plus, .minus, .star, .slash]) (hb : Word .expr b) :
    Word .expr (a ++ op :: b)
  | call {f as : List Kind} (hf : Word .expr f) (has : Word .args as) :
    Word .expr (f ++ .lParen :: (as ++ [.rParen]))
  | noArgs : Word .args []
  | oneArg {e : List Kind} (he : Word .expr e) : Word .args e
  | moreArgs {e as : List Kind} (he : Word .expr e) (has : Word .args as) :
    Word .args (e ++ .comma :: as)

/-- The kind that comes first, or the end of the text. -/
def Kind.first : List Kind → Kind
  | [] => .eof
  | k :: _ => k

theorem Kind.first_append {a : List Kind} (h : a ≠ []) (b : List Kind) :
    first (a ++ b) = first a := by
  cases a with
  | nil => exact absurd rfl h
  | cons k a => rfl

/-- An item starts with a keyword. -/
theorem Word.first_of_items {w : List Kind} (h : Word .items w) :
    w = [] ∨ Kind.first w = .funcKw ∨ Kind.first w = .letKw := by
  cases h with
  | noItems => exact .inl rfl
  | funcItem hf _ =>
    cases hf
    exact .inr (.inl rfl)
  | letItem hl _ =>
    cases hl
    exact .inr (.inr rfl)

/-- The parts of an expression in a row. -/
inductive Part where
  | primary | calls | operand | tail | args

/-- Expressions as rows: operands with operators between them, where an operand is a number, a name
or an expression in parentheses, with signs before it and calls after it. -/
inductive Row : Part → List Kind → Prop
  | number : Row .primary [.intNumber]
  | name : Row .primary [.ident]
  | paren {c t : List Kind} (hc : Row .operand c) (ht : Row .tail t) :
    Row .primary (.lParen :: (c ++ t ++ [.rParen]))
  | noCalls : Row .calls []
  | call {a d : List Kind} (ha : Row .args a) (hd : Row .calls d) :
    Row .calls (.lParen :: (a ++ .rParen :: d))
  | plain {p d : List Kind} (hp : Row .primary p) (hd : Row .calls d) : Row .operand (p ++ d)
  | negated {c : List Kind} (hc : Row .operand c) : Row .operand (.minus :: c)
  | noTail : Row .tail []
  | link {c t : List Kind} {op : Kind} (hop : op ∈ [Kind.plus, .minus, .star, .slash])
    (hc : Row .operand c) (ht : Row .tail t) : Row .tail (op :: (c ++ t))
  | noArgs : Row .args []
  | oneArg {c t : List Kind} (hc : Row .operand c) (ht : Row .tail t) : Row .args (c ++ t)
  | moreArgs {c t as : List Kind} (hc : Row .operand c) (ht : Row .tail t) (has : Row .args as) :
    Row .args (c ++ t ++ .comma :: as)

namespace Row

/-- An expression as a row. -/
def Expr (e : List Kind) : Prop := ∃ c t, e = c ++ t ∧ Row .operand c ∧ Row .tail t

theorem calls_append {d : List Kind} (hd : Row .calls d) :
    ∀ {c : List Kind}, Row .calls c → Row .calls (c ++ d)
  | _, .noCalls => hd
  | _, .call ha hc => by simpa using call ha (calls_append hd hc)
termination_by c => c.length
decreasing_by
  simp only [List.length_cons, List.length_append]
  omega

/-- Calls may follow an operand. -/
theorem operand_append {d : List Kind} (hd : Row .calls d) :
    ∀ {c : List Kind}, Row .operand c → Row .operand (c ++ d)
  | _, .plain hp hc => by simpa using plain hp (calls_append hd hc)
  | _, .negated hc => negated (operand_append hd hc)

theorem tail_append {t : List Kind} (ht : Row .tail t) :
    ∀ {s : List Kind}, Row .tail s → Row .tail (s ++ t)
  | _, .noTail => ht
  | _, .link hop hc hs => by simpa using link hop hc (tail_append ht hs)
termination_by s => s.length
decreasing_by
  simp only [List.length_cons, List.length_append]
  omega

/-- Calls that follow a row belong to its last operand. -/
theorem tail_append_calls {d : List Kind} (hd : Row .calls d) :
    ∀ {t : List Kind}, Row .tail t → t ≠ [] → Row .tail (t ++ d)
  | _, .noTail, hne => absurd rfl hne
  | _, .link hop hc .noTail, _ => by simpa using link hop (operand_append hd hc) noTail
  | _, .link hop hc (.link hop' hc' ht), _ => by
    simpa using link hop hc (tail_append_calls hd (.link hop' hc' ht) nofun)
termination_by t => t.length
decreasing_by
  simp only [List.length_cons, List.length_append]
  omega

/-- An operand starts with a number, a name, a parenthesis or a sign. -/
theorem first_of_operand {c : List Kind} (h : Row .operand c) :
    Grammar.exprFirst.contains (Kind.first c) = true ∧ c ≠ [] := by
  cases h with
  | negated _ => simp [Kind.first, Grammar.exprFirst]
  | plain hp _ => cases hp <;> simp [Kind.first, Grammar.exprFirst]

namespace Expr

variable {e e' d t : List Kind}

theorem append_tail (h : Expr e) (ht : Row .tail t) : Expr (e ++ t) := by
  obtain ⟨c, s, rfl, hc, hs⟩ := h
  exact ⟨c, s ++ t, List.append_assoc c s t, hc, tail_append ht hs⟩

theorem append_calls (h : Expr e) (hd : Row .calls d) : Expr (e ++ d) := by
  obtain ⟨c, s, rfl, hc, hs⟩ := h
  by_cases hne : s = []
  · exact ⟨c ++ d, [], by simp [hne], operand_append hd hc, noTail⟩
  · exact ⟨c, s ++ d, List.append_assoc c s d, hc, tail_append_calls hd hs hne⟩

theorem negated (h : Expr e) : Expr (.minus :: e) := by
  obtain ⟨c, s, rfl, hc, hs⟩ := h
  exact ⟨.minus :: c, s, rfl, .negated hc, hs⟩

theorem binary {op : Kind} (h : Expr e) (hop : op ∈ [Kind.plus, .minus, .star, .slash])
    (h' : Expr e') : Expr (e ++ op :: e') := by
  obtain ⟨c, s, rfl, hc, hs⟩ := h'
  exact h.append_tail (link hop hc hs)

theorem ne_nil (h : Expr e) : e ≠ [] := by
  obtain ⟨c, s, rfl, hc, -⟩ := h
  simp [hc.first_of_operand.2]

theorem first_mem (h : Expr e) : Grammar.exprFirst.contains (Kind.first e) = true := by
  obtain ⟨c, s, rfl, hc, -⟩ := h
  rw [Kind.first_append hc.first_of_operand.2]
  exact hc.first_of_operand.1

/-- An expression that starts with a parenthesis or a sign continues the expression before it. -/
theorem append (h : Expr e) (h' : Expr e')
    (hfirst : Kind.first e' = .lParen ∨ Kind.first e' = .minus) : Expr (e ++ e') := by
  obtain ⟨c, t, rfl, hc, ht⟩ := h'
  cases hc with
  | negated hc => exact h.append_tail (link (by decide) hc ht)
  | plain hp hd =>
    cases hp with
    | number => simp [Kind.first] at hfirst
    | name => simp [Kind.first] at hfirst
    | paren hc hs =>
      have hcall := call (oneArg hc hs) hd
      simpa using (h.append_calls hcall).append_tail ht

end Expr

/-- What the words of a nonterminal look like as rows. -/
def Shape : Symbol → List Kind → Prop
  | .expr => Expr
  | .args => Row .args
  | _ => fun _ => True

/-- Expressions and their arguments can be written as rows. -/
theorem shape_of_word {symbol : Symbol} {w : List Kind} (h : Word symbol w) : Shape symbol w := by
  induction h with
  | number => exact ⟨[.intNumber], [], rfl, plain number noCalls, noTail⟩
  | name => exact ⟨[.ident], [], rfl, plain name noCalls, noTail⟩
  | paren _ ih =>
    obtain ⟨c, t, rfl, hc, ht⟩ := ih
    exact ⟨_, [], by simp, plain (paren hc ht) noCalls, noTail⟩
  | negated _ ih => exact Expr.negated ih
  | binary _ hop _ iha ihb => exact Expr.binary iha hop ihb
  | call _ _ ihf ihas => exact Expr.append_calls ihf (call ihas noCalls)
  | noArgs => exact noArgs
  | oneArg _ ih =>
    obtain ⟨c, t, rfl, hc, ht⟩ := ih
    exact oneArg hc ht
  | moreArgs _ _ ih ihas =>
    obtain ⟨c, t, rfl, hc, ht⟩ := ih
    exact moreArgs hc ht ihas
  | _ => trivial

end Row

/-- The kinds with which an expression goes on. -/
def Kind.continuing : List Kind := [lParen, plus, minus, star, slash]

/-- Whether no expression can go on with what comes first. -/
def Stops (w : List Kind) : Prop := Kind.first w ∉ Kind.continuing

/-- The kinds with which a statement starts. -/
def Kind.stmtFirst : List Kind := [letKw, returnKw, ident, intNumber, lParen, minus]

/-- Statements that are as long as they can be. -/
inductive Greedy : List Kind → Prop
  | nil : Greedy []
  | letType {t w : List Kind} (ht : Word (.typeAfter .colon) t) (hw : Greedy w) :
    Greedy (.letKw :: .ident :: (t ++ w))
  | letValue {t e w : List Kind} (ht : Word (.typeAfter .colon) t) (he : Row.Expr e)
    (hstops : Stops w) (hw : Greedy w) : Greedy (.letKw :: .ident :: (t ++ .eq :: (e ++ w)))
  | bareReturn {w : List Kind} (hfirst : Grammar.exprFirst.contains (Kind.first w) = false)
    (hw : Greedy w) : Greedy (.returnKw :: w)
  | valueReturn {e w : List Kind} (he : Row.Expr e) (hstops : Stops w) (hw : Greedy w) :
    Greedy (.returnKw :: (e ++ w))
  | exprStmt {e w : List Kind} (he : Row.Expr e) (hstops : Stops w) (hw : Greedy w) :
    Greedy (e ++ w)

namespace Greedy

variable {e w : List Kind}

/-- A row of statements that starts like an expression starts with one. -/
theorem exists_expr (h : Greedy w) (hfirst : Grammar.exprFirst.contains (Kind.first w) = true) :
    ∃ e w', w = e ++ w' ∧ Row.Expr e ∧ Stops w' ∧ Greedy w' := by
  cases h with
  | nil | letType _ _ | letValue _ _ _ _ | bareReturn _ _ | valueReturn _ _ _ =>
    simp [Kind.first, Grammar.exprFirst] at hfirst
  | exprStmt he hstops hw => exact ⟨_, _, rfl, he, hstops, hw⟩

/-- A statement starts with a keyword or like an expression. -/
theorem first_mem (h : Greedy w) (hne : w ≠ []) :
    Kind.first w ∈ Kind.stmtFirst := by
  cases h with
  | nil => exact absurd rfl hne
  | letType _ _ | letValue _ _ _ _ | bareReturn _ _ | valueReturn _ _ _ =>
    simp [Kind.first, Kind.stmtFirst]
  | exprStmt he _ _ =>
    have hfirst := he.first_mem
    rw [Kind.first_append he.ne_nil]
    simp only [Grammar.exprFirst, KindSet.contains_ofList, List.contains_iff_mem] at hfirst
    exact List.mem_cons_of_mem _ (List.mem_cons_of_mem _ hfirst)

/-- Nothing but a parenthesis or a sign can continue an expression and start a statement. -/
theorem first_of_not_stops (h : Greedy w) (hw : ¬ Stops w) :
    Kind.first w = .lParen ∨ Kind.first w = .minus := by
  rw [Stops, Classical.not_not] at hw
  by_cases hne : w = []
  · rw [hne] at hw
    exact absurd hw (by decide)
  · have hfirst := h.first_mem hne
    simp only [Kind.continuing, Kind.stmtFirst] at hw hfirst
    grind

/-- An expression takes the expression after it in, if that can continue it. -/
theorem exists_extension (he : Row.Expr e) (h : Greedy w) :
    ∃ e' w', e ++ w = e' ++ w' ∧ Row.Expr e' ∧ Stops w' ∧ Greedy w' := by
  by_cases hstops : Stops w
  · exact ⟨e, w, rfl, he, hstops, h⟩
  · have hfirst := h.first_of_not_stops hstops
    have hexpr : Grammar.exprFirst.contains (Kind.first w) = true := by
      rcases hfirst with hfirst | hfirst <;> rw [hfirst] <;> rfl
    obtain ⟨e', w', rfl, he', hstops', hw'⟩ := h.exists_expr hexpr
    rw [Kind.first_append he'.ne_nil] at hfirst
    exact ⟨e ++ e', w', (List.append_assoc e e' w').symm, he.append he' hfirst, hstops', hw'⟩

end Greedy

/-- What the words of a nonterminal do before statements that are as long as they can be. -/
def Greedy.Shape : Symbol → List Kind → Prop
  | .stmts => Greedy
  | .stmt | .letDecl => fun w => ∀ rest, Greedy rest → Greedy (w ++ rest)
  | _ => fun _ => True

/-- Every row of statements has a reading in which each is as long as it can be. -/
theorem Greedy.shape_of_word {symbol : Symbol} {w : List Kind} (h : Word symbol w) :
    Shape symbol w := by
  -- the statements after a word come first, so that a word only has to take in what it can
  induction h with
  | noStmts => exact nil
  | moreStmts _ _ ihs ihw => exact ihs _ ihw
  | letStmt _ ih => exact ih
  | letDecl ht hv =>
    intro rest hrest
    cases hv with
    | noValue => simpa using letType ht hrest
    | someValue he =>
      obtain ⟨e, w, heq, he', hstops, hw⟩ := exists_extension (Row.shape_of_word he) hrest
      simpa [heq] using letValue ht he' hstops hw
  | bareReturn =>
    intro rest hrest
    cases hfirst : Grammar.exprFirst.contains (Kind.first rest) with
    | false => exact bareReturn hfirst hrest
    | true =>
      obtain ⟨e, w, rfl, he, hstops, hw⟩ := hrest.exists_expr hfirst
      rw [List.singleton_append]
      exact valueReturn he hstops hw
  | valueReturn he =>
    intro rest hrest
    obtain ⟨e, w, heq, he', hstops, hw⟩ := exists_extension (Row.shape_of_word he) hrest
    rw [List.cons_append, heq]
    exact valueReturn he' hstops hw
  | exprStmt he =>
    intro rest hrest
    obtain ⟨e, w, heq, he', hstops, hw⟩ := exists_extension (Row.shape_of_word he) hrest
    rw [heq]
    exact exprStmt he' hstops hw
  | _ => trivial

end Verbatim
