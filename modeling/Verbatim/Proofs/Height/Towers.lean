import Verbatim.Proofs.Height.Bound
import Verbatim.Proofs.Language

/-!
# Towers of expressions

A row of calls or operators holds a level for each of them until the row ends, and what was read
stays below what is read next. A tower uses this at every level: a lower tower in parentheses, then
as many calls as there are levels, then as many operators. With an operator behind it that has no
level for its operand, it is exactly as high as the bound on heights allows.

Derivations are built forwards. A row of calls or operators gives the callee or operand that it ends
with, and takes every derivation from there to one from before the row.
-/

namespace Verbatim

/-- A token of a kind, with nothing in it. -/
def Token.ofKind (kind : Kind) : Token := ⟨[], kind, [], 0, []⟩

/-- A nesting of this depth that has not met the limit. -/
structure Nesting.At (n : Nesting) (depth : Nat) : Prop where
  depth_eq : n.depth = depth
  exhausted_eq : n.exhausted = false

namespace Nesting.At

variable {n : Nesting} {d k : Nat}

theorem enter (h : n.At d) (hd : d < maxNesting) : n.enter.1 = true ∧ n.enter.2.At (d + 1) := by
  have hgranted : n.enter.1 = true := enter_eq_true_iff.mpr ⟨h.exhausted_eq, h.depth_eq ▸ hd⟩
  exact ⟨hgranted, by rw [depth_enter_of_granted hgranted, h.depth_eq],
    (enter_of_granted hgranted).1⟩

/-- No level is granted at the limit. -/
theorem refused (h : n.At maxNesting) : n.enter.1 = false := by
  refine Bool.eq_false_iff.mpr fun hgranted => ?_
  have hlt := depth_lt_of_granted hgranted
  rw [h.depth_eq] at hlt
  exact Nat.lt_irrefl _ hlt

theorem leave (h : n.At (d + k)) : ({ n with depth := n.depth - k } : Nesting).At d :=
  ⟨by simp [h.depth_eq], h.exhausted_eq⟩

end Nesting.At

namespace Kind

@[simp] theorem first_cons (kind : Kind) (kinds : List Kind) : first (kind :: kinds) = kind := rfl

/-- Two kinds in turn, so many times. -/
def pairs (a b : Kind) : Nat → List Kind
  | 0 => []
  | count + 1 => a :: b :: pairs a b count

/-- Some calls without arguments. -/
abbrev calls (count : Nat) : List Kind := pairs lParen rParen count

/-- Some numbers, each behind a plus. -/
abbrev sums (count : Nat) : List Kind := pairs plus intNumber count

/-- A number, or a lower tower in parentheses with calls and sums behind it. -/
def tower : Nat → List Kind
  | 0 => [intNumber]
  | l + 1 => lParen :: (tower l ++ rParen :: (calls (l + 1) ++ sums (l + 1)))

theorem length_pairs (a b : Kind) (count : Nat) : (pairs a b count).length = 2 * count := by
  induction count with
  | zero => rfl
  | succ count ih =>
    rw [pairs, List.length_cons, List.length_cons, ih]
    omega

theorem length_tower (l : Nat) : (tower l).length = 2 * (l * l) + 4 * l + 1 := by
  induction l with
  | zero => rfl
  | succ l ih =>
    simp only [tower, List.length_cons, List.length_append, ih, length_pairs, Nat.add_mul,
      Nat.mul_add]
    omega

/-- Whether an operand ends here, with the operators that bind tighter than a plus. -/
def Closes (kinds : List Kind) : Prop :=
  first kinds = .plus ∨ first kinds = .rParen ∨ first kinds = .eof

namespace Closes

variable {rest : List Kind}

theorem ne_lParen (h : Closes rest) : first rest ≠ .lParen := by
  rcases h with h | h | h <;> rw [h] <;> decide

theorem power_le (h : Closes rest) {power : Nat}
    (hpower : Grammar.bindingPower? (first rest) = some power) : power ≤ 1 := by
  rcases h with h | h | h <;> rw [h] at hpower <;> cases hpower
  exact Nat.le_refl _

theorem sums (h : Closes rest) (count : Nat) : Closes (sums count ++ rest) := by
  cases count with
  | zero => exact h
  | succ count => exact .inl rfl

end Closes

end Kind

/-- A reader before tokens of these kinds. -/
def Reader.before (kinds : List Kind) (n : Nesting) : Reader := ⟨kinds.map Token.ofKind, n⟩

@[simp] theorem Reader.next_before (kinds : List Kind) (n : Nesting) :
    (before kinds n).next = Kind.first kinds := by
  cases kinds <;> rfl

/-- The clause of a call without arguments. -/
def Sketch.noArgs : Sketch :=
  node .argClause false
    [token (.ofKind .lParen), node .argList false [], token (.ofKind .rParen)]

namespace Reads

open Reader Kind

variable {n n' : Nesting} {d : Nat} {kinds rest : List Kind}

/-- The next token is the one that is read. -/
theorem token_before {kind : Kind} :
    Reads (Phrase.token kind) (before (kind :: rest) n) [.token (.ofKind kind)] (before rest n) :=
  .token rfl

theorem argClause_before :
    Reads Phrase.argClause (before (.lParen :: .rParen :: rest) n) [.noArgs] (before rest n) := by
  have hnone : (before (.rParen :: rest) n).atArgument = false := by
    have hend : (Kind.rParen == .comma || Grammar.exprFirst.contains .rParen) = false := by decide
    rw [atArgument, next_before, first_cons, hend, Bool.false_and]
  exact .node (.cons token_before (.cons (.node (.cons (.argsDone hnone) .nil))
    (.cons (.there (by simp) token_before) .nil)))

theorem paren_before {s : Sketch}
    (h : Reads Phrase.expr (before kinds n) [s] (before (.rParen :: rest) n')) :
    Reads Phrase.primary (before (.lParen :: kinds) n)
      [.node .parenExpr false [.token (.ofKind .lParen), s, .token (.ofKind .rParen)]]
      (before rest n') :=
  .other (by simp) (.other (by simp) (.there (by simp) (.node (.cons token_before
    (.cons h (.cons (.there (by simp) token_before) .nil))))))

/-- Each call of a row puts one expression around the callee and holds one level. -/
theorem exists_calls (h : n.At d) (count : Nat) (hd : d + count ≤ maxNesting) (callee : Sketch)
    (k : Nat) (rest : List Kind) :
    ∃ s, ∃ n' : Nesting, s.exprHeight = callee.exprHeight + count ∧ n'.At (d + count) ∧
      ∀ {slots q}, Reads (.calls s (k + count)) (before rest n') slots q →
        Reads (.calls callee k) (before (calls count ++ rest) n) slots q := by
  induction count generalizing n d callee k with
  | zero => exact ⟨callee, n, rfl, h, fun hcalls => hcalls⟩
  | succ count ih =>
    obtain ⟨hgranted, hn⟩ := h.enter (by omega)
    obtain ⟨s, n', hs, hn', hcalls⟩ :=
      ih hn (by omega) (.node .callExpr true [callee, .noArgs]) (k + 1)
    have hheight : (Sketch.node .callExpr true [callee, .noArgs]).exprHeight =
        callee.exprHeight + 1 := by
      simp [Sketch.exprHeight, Sketch.exprHeightOf, Sketch.noArgs, Kind.isExpr]
      omega
    rw [Nat.add_right_comm, Nat.add_assoc] at hn'
    refine ⟨s, n', by omega, hn', fun hrest => ?_⟩
    exact .call rfl hgranted argClause_before (hcalls (by rwa [Nat.add_right_comm, Nat.add_assoc]))

/-- A primary expression with calls behind it is an operand. -/
theorem exists_operand (h : n.At d) (count : Nat) (hd : d + count < maxNesting) {callee : Sketch}
    (hminus : first kinds ≠ .minus) (hn' : n'.At (d + 1))
    (hcallee : Reads Phrase.primary (before kinds n.enter.2) [callee]
      (before (calls count ++ rest) n'))
    (hrest : first rest ≠ .lParen) :
    ∃ s, ∃ n' : Nesting, s.exprHeight = callee.exprHeight + count ∧ n'.At d ∧
      Reads Phrase.prefixed (before kinds n) [s] (before rest n') := by
  obtain ⟨s, n₂, hs, hn₂, hcalls⟩ := exists_calls hn' count (by omega) callee 0 rest
  rw [Nat.zero_add] at hcalls
  have hdone : Reads (.calls s count) (before rest n₂) [s] ((before rest n₂).leave count) :=
    .callsDone (by rwa [next_before])
  have hgranted : (before kinds n).enter.1 = true := (h.enter (by omega)).1
  exact ⟨s, _, hs, hn₂.leave.leave, .operand hgranted (by rwa [next_before]) hcallee (hcalls hdone)⟩

/-- A number with calls behind it is an operand. -/
theorem exists_number (h : n.At d) (count : Nat) (hd : d + count < maxNesting)
    (hrest : Closes rest) :
    ∃ s, ∃ n' : Nesting, s.exprHeight = count + 1 ∧ n'.At d ∧
      Reads Phrase.prefixed (before (.intNumber :: (calls count ++ rest)) n) [s]
        (before rest n') := by
  obtain ⟨-, hn⟩ := h.enter (by omega)
  have hnumber : Reads Phrase.primary (before (.intNumber :: (calls count ++ rest)) n.enter.2)
      [.node .literalExpr false [.token (.ofKind .intNumber)]]
      (before (calls count ++ rest) n.enter.2) := .there (by simp) (.node (.cons token_before .nil))
  obtain ⟨s, n', hs, hn', hprefixed⟩ :=
    exists_operand h count hd (by simp) hn hnumber hrest.ne_lParen
  have hheight : s.exprHeight = 1 + count := hs
  exact ⟨s, n', by omega, hn', hprefixed⟩

/-- A number is an operand of a plus. -/
theorem exists_summand (h : n.At d) (hd : d < maxNesting) (hrest : Closes rest) :
    ∃ s, ∃ n' : Nesting, s.exprHeight = 1 ∧ n'.At d ∧
      Reads (Phrase.operators 1) (before (.intNumber :: rest) n) [s] (before rest n') := by
  obtain ⟨s, n', hs, hn', hnumber⟩ := exists_number h 0 hd hrest
  have hdone : Reads (.links 1 s 0) (before rest n') [s] _ :=
    .linksDone fun power hpower => hrest.power_le (by rwa [next_before] at hpower)
  exact ⟨s, _, hs, hn', .operators hnumber hdone⟩

/-- Each sum of a row puts one expression around the operand and holds one level. -/
theorem exists_sums (h : n.At d) (count : Nat) (hd : d + count < maxNesting) {lhs : Sketch}
    (hlhs : 0 < lhs.exprHeight) (k : Nat) (hrest : Closes rest) :
    ∃ s, ∃ n' : Nesting, s.exprHeight = lhs.exprHeight + count ∧ n'.At (d + count) ∧
      ∀ {slots q}, Reads (.links 0 s (k + count)) (before rest n') slots q →
        Reads (.links 0 lhs k) (before (sums count ++ rest) n) slots q := by
  induction count generalizing n d lhs k with
  | zero => exact ⟨lhs, n, rfl, h, fun hlinks => hlinks⟩
  | succ count ih =>
    obtain ⟨hgranted, hn⟩ := h.enter (by omega)
    obtain ⟨rhs, n₁, hrhs, hn₁, hsummand⟩ := exists_summand hn (by omega) (hrest.sums count)
    have hheight : (Sketch.node .binaryExpr true [lhs, .token (.ofKind .plus), rhs]).exprHeight =
        lhs.exprHeight + 1 := by
      simp only [Sketch.exprHeight, Sketch.exprHeightOf, hrhs]
      have hexpr : Kind.binaryExpr.isExpr.toNat = 1 := rfl
      omega
    obtain ⟨s, n', hs, hn', hlinks⟩ := ih hn₁ (by omega) (by rw [hheight]; omega) (k + 1)
    rw [Nat.add_right_comm, Nat.add_assoc] at hn'
    refine ⟨s, n', by omega, hn', fun hlast => ?_⟩
    exact .link rfl Nat.zero_lt_one hgranted hsummand
      (hlinks (by rwa [Nat.add_right_comm, Nat.add_assoc]))

/-- An operand with sums behind it can be followed by more operators. -/
theorem exists_operators (h : n.At d) (count : Nat) (hd : d + count < maxNesting) {lhs : Sketch}
    (hlhs : 0 < lhs.exprHeight)
    (hfirst : Reads Phrase.prefixed (before kinds n') [lhs] (before (sums count ++ rest) n))
    (hrest : Closes rest) :
    ∃ s, ∃ n'' : Nesting, s.exprHeight = lhs.exprHeight + count ∧ n''.At (d + count) ∧
      ∀ {slots q}, Reads (.links 0 s count) (before rest n'') slots q →
        Reads Phrase.expr (before kinds n') slots q := by
  obtain ⟨s, n'', hs, hn, hlinks⟩ := exists_sums h count hd hlhs 0 hrest
  rw [Nat.zero_add] at hlinks
  exact ⟨s, n'', hs, hn, fun hlast => .operators hfirst (hlinks hlast)⟩

/-- A tower is as high as the square of its levels, and holds all of them but one in the end. -/
theorem exists_tower (l : Nat) (h : n.At d) (hd : d + l < maxNesting) (hrest : Closes rest) :
    ∃ s, ∃ n' : Nesting, s.exprHeight = (l + 1) * (l + 1) ∧ n'.At (d + l) ∧
      ∀ {slots q}, Reads (.links 0 s l) (before rest n') slots q →
        Reads Phrase.expr (before (tower l ++ rest) n) slots q := by
  induction l generalizing n d rest with
  | zero =>
    obtain ⟨s, n', hs, hn', hnumber⟩ := exists_number h 0 hd hrest
    exact ⟨s, n', hs, hn', fun hlinks => .operators hnumber hlinks⟩
  | succ l ih =>
    obtain ⟨-, hn⟩ := h.enter (by omega)
    have hinner : Closes (.rParen :: (calls (l + 1) ++ (sums (l + 1) ++ rest))) := .inr (.inl rfl)
    obtain ⟨lower, n₁, hlower, hn₁, hlinks⟩ := ih hn (by omega) hinner
    have hexpr : Reads Phrase.expr _ [lower] _ :=
      hlinks (.linksDone fun power hpower => by
        rw [next_before] at hpower
        cases hpower)
    have hplus : first (sums (l + 1) ++ rest) ≠ .lParen := (hrest.sums (l + 1)).ne_lParen
    obtain ⟨callee, n₂, hcallee, hn₂, hprefixed⟩ :=
      exists_operand h (l + 1) hd (by simp) hn₁.leave (paren_before hexpr) hplus
    have hheight : callee.exprHeight = (l + 1) * (l + 1) + 1 + (l + 1) := by
      rw [hcallee]
      simp [Sketch.exprHeight, Sketch.exprHeightOf, Kind.isExpr, hlower]
      omega
    obtain ⟨s, n₃, hs, hn₃, hoperators⟩ :=
      exists_operators hn₂ (l + 1) hd (by omega) hprefixed hrest
    refine ⟨s, n₃, ?_, hn₃, fun hlast => ?_⟩
    · rw [hs, hheight]
      simp only [Nat.add_mul, Nat.mul_add]
      omega
    · have htower : tower (l + 1) ++ rest =
          .lParen :: (tower l ++ .rParen :: (calls (l + 1) ++ (sums (l + 1) ++ rest))) := by
        simp [tower]
      rw [htower]
      exact hoperators hlast

/-- A number with calls and sums behind it is one expression for each of them. -/
theorem exists_row {count more : Nat} (hcount : count < maxNesting) (hmore : more < maxNesting) :
    ∃ s n', s.exprHeight = count + more + 1 ∧
      Reads Phrase.expr (before (.intNumber :: (calls count ++ sums more)) {}) [s]
        (before [] n') := by
  have h : Nesting.At {} 0 := ⟨rfl, rfl⟩
  have hend : Closes [] := .inr (.inr rfl)
  obtain ⟨callee, n, hcallee, hn, hprefixed⟩ :=
    exists_number h count (by omega) (hend.sums more)
  obtain ⟨s, n', hs, -, hoperators⟩ :=
    exists_operators hn more (by omega) (by omega) hprefixed hend
  have hexpr : Reads Phrase.expr _ [s] ((before [] n').leave more) := hoperators (.linksDone nofun)
  rw [List.append_nil] at hexpr
  exact ⟨s, _, by omega, hexpr⟩

/-- The highest tower with a plus behind it reaches the bound. -/
theorem exists_highest :
    ∃ s n', s.exprHeight = maxNesting * maxNesting + 1 ∧
      Reads Phrase.expr (before (tower (maxNesting - 1) ++ [.plus]) {}) [s] (before [] n') := by
  have h : Nesting.At {} 0 := ⟨rfl, rfl⟩
  have hplus : Closes [.plus] := .inl rfl
  obtain ⟨lhs, n, hlhs, hn, hexpr⟩ := exists_tower (maxNesting - 1) h (by decide) hplus
  -- The operator takes the last level, so that there is none for its operand.
  obtain ⟨hgranted, hlast⟩ := hn.enter (by decide)
  have hmissing : Reads Phrase.prefixed (before [] n.enter.2) [.missing .missingExpr] _ :=
    .tooDeep hlast.refused
  have hrhs : Reads (Phrase.operators 1) (before [] n.enter.2) [.missing .missingExpr] _ :=
    .operators hmissing (.linksDone nofun)
  have hlink : Reads (.links 0 lhs (maxNesting - 1)) (before [.plus] n)
      [.node .binaryExpr true [lhs, .token (.ofKind .plus), .missing .missingExpr]] _ :=
    .link rfl Nat.zero_lt_one hgranted hrhs (.linksDone nofun)
  refine ⟨_, _, ?_, hexpr hlink⟩
  have hlevels : maxNesting - 1 + 1 = maxNesting := rfl
  simp [Sketch.exprHeight, Sketch.exprHeightOf, Kind.isExpr, hlhs, hlevels]
  decide

/-- A variable with a value is a file. -/
theorem items_let {s : Sketch} (h : Reads Phrase.expr (before kinds {}) [s] (before [] n)) :
    ∃ items n', Sketch.exprHeightOf items = s.exprHeight ∧
      Reads Phrase.items (before (.letKw :: .ident :: .eq :: kinds) {}) items (before [] n') := by
  have hvalue : Reads Phrase.initializer (before (.eq :: kinds) {}) _ (before [] n) :=
    .node (.cons token_before (.cons h .nil))
  have hdecl : Reads Phrase.letDecl (before (.letKw :: .ident :: .eq :: kinds) {}) _
      (before [] n) :=
    .node (.cons token_before (.cons (.there (by simp) token_before)
      (.cons (.other (by simp) .absent) (.cons (.there (by simp) hvalue) .nil))))
  have hitem : Reads Phrase.item (before (.letKw :: .ident :: .eq :: kinds) {}) _ (before [] n) :=
    .other (by simp) (.there (by simp) hdecl)
  have hcalm : Reads (Phrase.recovery Grammar.itemFirst) (before [] n) [] (before [] n).calm :=
    .calm (by simp [isStuck, first])
  refine ⟨_, _, ?_, .itemsMore (by simp) (.cons hitem (.cons hcalm .nil)) (.itemsDone rfl)⟩
  simp [Sketch.exprHeight, Sketch.exprHeightOf, Kind.isExpr]

end Reads

end Verbatim
