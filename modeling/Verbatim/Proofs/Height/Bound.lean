import Verbatim.Proofs.Reading

/-!
# How high expressions are stacked

A nesting level is held while the construct is read that it was entered for, and is free again for
the operators and calls that are put around the finished construct later. So the limit bounds the
levels that are held at a time, and the number of expressions above each other only through them:
with `L` levels left an expression is at most `L * L` high, and one higher if the limit was met. The
bound is kept for a phrase as its peak; for the operators after an operand, and the calls after a
callee, it follows from an invariant of the loop.
-/

namespace Verbatim

namespace Sketch

mutual
/-- The greatest number of expressions above each other in a slot. -/
def exprHeight : Sketch → Nat
  | token _ | absent => 0
  | missing kind => kind.isExpr.toNat
  | node kind _ slots => kind.isExpr.toNat + exprHeightOf slots
/-- The greatest number of expressions above each other in one of several slots. -/
def exprHeightOf : List Sketch → Nat
  | [] => 0
  | s :: rest => max s.exprHeight (exprHeightOf rest)
end

theorem exprHeightOf_append (a b : List Sketch) :
    exprHeightOf (a ++ b) = max (exprHeightOf a) (exprHeightOf b) := by
  induction a with
  | nil => simp [exprHeightOf]
  | cons s a ih => rw [List.cons_append, exprHeightOf, ih, exprHeightOf, Nat.max_assoc]

theorem exprHeightOf_singleton (s : Sketch) : exprHeightOf [s] = s.exprHeight := by
  simp [exprHeightOf]

theorem exprHeightOf_map_token (tokens : List Token) : exprHeightOf (tokens.map token) = 0 := by
  induction tokens with
  | nil => rfl
  | cons t tokens ih => simp [exprHeightOf, exprHeight, ih]

/-- A member of a list is as high as what stands before its comma. -/
theorem exprHeight_member {kind : Kind} (hkind : kind.isExpr = false) (slots : List Sketch)
    {comma : Sketch} (hcomma : comma.exprHeight = 0) :
    (node kind false (slots ++ [comma])).exprHeight = exprHeightOf slots := by
  simp [exprHeight, exprHeightOf_append, exprHeightOf_singleton, hkind, hcomma]

theorem exprHeight_le_of_mem {s : Sketch} {slots : List Sketch} (h : s ∈ slots) :
    s.exprHeight ≤ exprHeightOf slots := by
  induction slots with
  | nil => cases h
  | cons t slots ih =>
    rw [exprHeightOf]
    rcases List.mem_cons.mp h with rfl | h
    · exact Nat.le_max_left ..
    · exact Nat.le_trans (ih h) (Nat.le_max_right ..)

end Sketch

namespace Phrase

mutual
/-- Whether a phrase never forgets that the nesting limit was met. -/
def isSteady : Phrase → Bool
  | token _ | missing _ | absent | stray _ | operators _ | prefixed | args | params => true
  | either _ there other => there.isSteady && other.isSteady
  | seq parts | node _ parts => areSteady parts
  | recovery _ | stmts | items => false
/-- Whether none of several phrases forgets that the nesting limit was met. -/
def areSteady : List Phrase → Bool
  | [] => true
  | x :: rest => x.isSteady && areSteady rest
end

mutual
/-- How high expressions get in what a phrase reads, by the levels that are left and by whether the
limit is met in the end. -/
def peak (levels : Nat) (spent : Bool) : Phrase → Nat
  | token _ | absent | stray _ | recovery _ | params => 0
  | missing kind => kind.isExpr.toNat
  | either _ there other => max (there.peak levels spent) (other.peak levels spent)
  | seq parts => peakOf levels spent parts
  | node kind parts => kind.isExpr.toNat + peakOf levels spent parts
  | operators _ | args => levels * levels + spent.toNat
  | prefixed => if spent then levels * levels + 1 else levels * levels + 1 - levels
  | stmts | items => levels * levels + 1
/-- How high expressions get in what one of several phrases reads. -/
def peakOf (levels : Nat) (spent : Bool) : List Phrase → Nat
  | [] => 0
  | x :: rest => max (x.peak levels spent) (peakOf levels spent rest)
end

section

variable (levels : Nat) (spent : Bool)

theorem peak_primary : primary.peak levels spent = levels * levels + 1 + spent.toNat := by
  simp [primary, expr, required, peak, peakOf, Kind.isExpr]
  omega

theorem peak_argClause : argClause.peak levels spent = levels * levels + spent.toNat := by
  simp [argClause, required, peak, peakOf, Kind.isExpr]

/-- A statement is no higher than one of its expressions. -/
theorem peak_stmt (stop : KindSet) :
    (seq [stmt, recovery stop]).peak levels true = levels * levels + 1 := by
  simp [stmt, letDecl, returnStmt, initializer, typeAfter, typeName, expr, required, peak, peakOf,
    Kind.isExpr]

/-- An item is no higher than one of its statements. -/
theorem peak_item (stop : KindSet) :
    (seq [item, recovery stop]).peak levels true = levels * levels + 1 := by
  simp [item, funcDecl, letDecl, initializer, typeAfter, typeName, strayUntil, paramClause,
    codeBlock, expr, required, peak, peakOf, Kind.isExpr]

end

end Phrase

namespace Goal

/-- Whether a goal never forgets that the nesting limit was met. -/
def isSteady : Goal → Bool
  | phrase x => x.isSteady
  | links .. | calls .. => true

/-- As `Phrase.peak`; the levels that were entered before are free in the end. -/
def peak (levels : Nat) (spent : Bool) : Goal → Nat
  | phrase x => x.peak levels spent
  | links _ _ k => (levels + k) * (levels + k) + spent.toNat
  | calls _ k => (levels + k) * (levels + k) + (levels + k) + 1 + spent.toNat

/-- The invariant of the loops: as long as the limit was not met, each of the levels entered before
put at most one expression around the operand or the callee. -/
def Stacked (levels : Nat) (spent : Bool) : Goal → Prop
  | phrase _ => True
  | links _ lhs k =>
    if spent then lhs.exprHeight ≤ (levels + k) * (levels + k) + 1
    else 0 < levels ∧ lhs.exprHeight + levels ≤ (levels + k) * (levels + k) + 1
  | calls callee k =>
    if spent then callee.exprHeight ≤ (levels + k) * (levels + k) + (levels + k) + 2
    else callee.exprHeight ≤ (levels + k) * (levels + k) + 1 + k

namespace Stacked

variable {levels k : Nat} {spent : Bool}

/-- The square of the levels before one was entered, by the levels after that. -/
theorem square_le (levels k : Nat) :
    levels * levels + 2 * levels + 1 ≤ (levels + (k + 1)) * (levels + (k + 1)) := by
  have hle : (levels + 1) * (levels + 1) ≤ (levels + (k + 1)) * (levels + (k + 1)) :=
    Nat.mul_self_le_mul_self (by omega)
  have hsquare : (levels + 1) * (levels + 1) = levels * levels + 2 * levels + 1 := by
    rw [Nat.add_mul, Nat.mul_add]
    omega
  omega

/-- What the loops start with or end with is not too high. -/
theorem held_le {goal : Goal} {spent' : Bool} (h : goal.Stacked levels spent)
    (hspent : spent = true → spent' = true) :
    Sketch.exprHeightOf goal.held ≤ goal.peak levels spent' := by
  cases goal with
  | phrase x => exact Nat.zero_le _
  | links m lhs k =>
    cases spent
    · obtain ⟨hpos, hlhs⟩ := h
      simp only [held, Sketch.exprHeightOf_singleton, peak]
      omega
    · simpa [held, Sketch.exprHeightOf_singleton, peak, hspent rfl, Stacked] using h
  | calls callee k =>
    cases spent
    · have hcallee : callee.exprHeight ≤ (levels + k) * (levels + k) + 1 + k := h
      simp only [held, Sketch.exprHeightOf_singleton, peak]
      omega
    · simpa [held, Sketch.exprHeightOf_singleton, peak, hspent rfl, Stacked] using h

/-- Operators start after an operand. -/
theorem of_prefixed {m : Nat} {first : Sketch} (hpos : spent = false → 0 < levels)
    (h : first.exprHeight ≤ Phrase.prefixed.peak levels spent) :
    (links m first 0).Stacked levels spent := by
  cases spent
  · have hle : levels ≤ levels * levels + 1 := by
      have := Nat.le_mul_self levels
      omega
    have hfirst : first.exprHeight ≤ levels * levels + 1 - levels := h
    refine ⟨hpos rfl, ?_⟩
    simp only [Nat.add_zero]
    omega
  · exact h

/-- Calls start after something that can be called. -/
theorem of_primary {callee : Sketch} (h : callee.exprHeight ≤ levels * levels + 1 + spent.toNat) :
    (calls callee 0).Stacked levels spent := by
  cases spent
  · exact h
  · have hcallee : callee.exprHeight ≤ levels * levels + 1 + 1 := h
    simp only [Stacked, if_true, Nat.add_zero]
    omega

/-- An operator puts one expression around the operand before it, for one level. -/
theorem link {m : Nat} {lhs rhs : Sketch} {t : Token}
    (h : (links m lhs k).Stacked (levels + 1) false)
    (hrhs : rhs.exprHeight ≤ levels * levels + spent.toNat) (hpos : spent = false → 0 < levels) :
    (links m (.node .binaryExpr true [lhs, .token t, rhs]) (k + 1)).Stacked levels spent := by
  obtain ⟨-, hlhs⟩ := h
  have hsquare := square_le levels k
  have hheight : (Sketch.node .binaryExpr true [lhs, .token t, rhs]).exprHeight =
      1 + max lhs.exprHeight rhs.exprHeight := by
    simp [Sketch.exprHeight, Sketch.exprHeightOf, Kind.isExpr]
  rw [show levels + 1 + k = levels + (k + 1) by omega] at hlhs
  cases spent
  · refine ⟨hpos rfl, ?_⟩
    simp only [Bool.toNat_false] at hrhs
    omega
  · simp only [Bool.toNat_true] at hrhs
    simp only [Stacked, hheight, if_true]
    omega

/-- A call puts one expression around the callee before it, for one level. -/
theorem call {callee clause : Sketch} (h : (calls callee k).Stacked (levels + 1) false)
    (hclause : clause.exprHeight ≤ levels * levels + spent.toNat) :
    (calls (.node .callExpr true [callee, clause]) (k + 1)).Stacked levels spent := by
  have hcallee : callee.exprHeight ≤ (levels + 1 + k) * (levels + 1 + k) + 1 + k := h
  have hsquare := square_le levels k
  have hheight : (Sketch.node .callExpr true [callee, clause]).exprHeight =
      1 + max callee.exprHeight clause.exprHeight := by
    simp [Sketch.exprHeight, Sketch.exprHeightOf, Kind.isExpr]
  rw [show levels + 1 + k = levels + (k + 1) by omega] at hcallee
  cases spent
  · simp only [Bool.toNat_false] at hclause
    simp only [Stacked, hheight, Bool.false_eq_true, if_false]
    omega
  · simp only [Bool.toNat_true] at hclause
    simp only [Stacked, hheight, if_true]
    omega

end Stacked

/-- An operand takes one level for its calls and all that is called. -/
theorem peak_calls_le (callee : Sketch) (levels : Nat) (spent : Bool) :
    (calls callee 0).peak levels spent ≤ Phrase.prefixed.peak (levels + 1) spent := by
  have hsquare := Stacked.square_le levels 0
  simp only [Nat.zero_add] at hsquare
  cases spent
  · simp only [peak, Phrase.peak, Bool.false_eq_true, if_false, Bool.toNat_false, Nat.add_zero]
    omega
  · simp only [peak, Phrase.peak, if_true, Bool.toNat_true, Nat.add_zero]
    omega

/-- A sign takes one level for itself and one expression. -/
theorem peak_prefixed_le {levels : Nat} {spent : Bool} (hpos : spent = false → 0 < levels) :
    1 + Phrase.prefixed.peak levels spent ≤ Phrase.prefixed.peak (levels + 1) spent := by
  have hsquare := Stacked.square_le levels 0
  have hle := Nat.le_mul_self levels
  simp only [Nat.zero_add] at hsquare
  cases spent
  · have := hpos rfl
    simp only [Phrase.peak, Bool.false_eq_true, if_false]
    omega
  · simp only [Phrase.peak, if_true]
    omega

end Goal

namespace Reader

/-- The nesting levels that are left. -/
def levels (p : Reader) : Nat := maxNesting - p.nesting.depth

/-- A level that is granted is one of those that are left. -/
theorem levels_of_granted {p : Reader} (h : p.enter.1 = true) :
    p.levels = p.enter.2.levels + 1 := by
  have hlt : p.nesting.depth < maxNesting := Nesting.depth_lt_of_granted h
  have hdepth : p.enter.2.nesting.depth = p.nesting.depth + 1 := Nesting.depth_enter_of_granted h
  rw [levels, levels, hdepth]
  omega

end Reader

namespace Reads

variable {goal : Goal} {p q : Reader} {slots : List Sketch}

/-- A steady goal that starts past the nesting limit ends past it. -/
theorem exhausted_of_isSteady (h : Reads goal p slots q) (hgoal : goal.isSteady = true)
    (hp : p.nesting.exhausted = true) : q.nesting.exhausted = true := by
  induction h with
  | token | missing | absent | nil | stray | linksDone | callsDone | argsDone | paramsDone =>
    exact hp
  | there _ _ ih => exact ih (Bool.and_eq_true_iff.mp hgoal).1 hp
  | other _ _ ih => exact ih (Bool.and_eq_true_iff.mp hgoal).2 hp
  | cons _ _ ihx ihxs =>
    obtain ⟨hx, hxs⟩ := Bool.and_eq_true_iff.mp hgoal
    exact ihxs hxs (ihx hx hp)
  | node _ ih => exact ih hgoal hp
  | operators _ _ ihfirst ihlinks => exact ihlinks rfl (ihfirst rfl hp)
  | tooDeep henter | linkRefused _ _ henter | callRefused _ henter =>
    exact Nesting.exhausted_of_refused henter
  | link _ _ henter | negated henter | operand henter | call _ henter =>
    cases hp.symm.trans (Nesting.enter_eq_true_iff.mp henter).1
  | argMore _ _ _ _ iharg ihmore => exact ihmore rfl (iharg rfl hp)
  | argLast _ _ _ ih => exact ih rfl hp
  | paramMore _ _ _ ihparam ihmore => exact ihmore rfl (ihparam rfl hp)
  | paramLast _ _ ih => exact ih rfl hp
  | calm | rescue | stmtsDone | stmtsMore | itemsDone | itemsMore => cases hgoal

/-- An operand that does not meet the nesting limit has a level for itself. -/
theorem levels_pos_of_prefixed (h : Reads Phrase.prefixed p slots q)
    (hq : q.nesting.exhausted = false) : 0 < p.levels := by
  have hpos (henter : p.enter.1 = true) : 0 < p.levels :=
    Nat.sub_pos_of_lt (Nesting.depth_lt_of_granted henter)
  cases h with
  | tooDeep henter => cases hq.symm.trans (Nesting.exhausted_of_refused henter)
  | negated henter => exact hpos henter
  | operand henter => exact hpos henter

/-- An expression that does not meet the nesting limit has a level for itself. -/
theorem levels_pos_of_operators {m : Nat} (h : Reads (Phrase.operators m) p slots q)
    (hq : q.nesting.exhausted = false) : 0 < p.levels := by
  cases h with
  | operators hfirst hlinks =>
    refine hfirst.levels_pos_of_prefixed (Bool.eq_false_iff.mpr fun hspent => ?_)
    cases hq.symm.trans (hlinks.exhausted_of_isSteady rfl hspent)

/-- A phrase leaves the levels as they were. -/
theorem levels_eq {x : Phrase} (h : Reads x p slots q) : q.levels = p.levels := by
  have hdepth := h.depth_add_entered (Nat.zero_le _)
  rw [Goal.entered, Nat.add_zero] at hdepth
  rw [Reader.levels, Reader.levels, hdepth]

/-- What is read is no higher than the peak of its goal, where the limit counts as met if it is met
in the end, or if that may have been forgotten. -/
theorem exprHeightOf_le (h : Reads goal p slots q)
    (hheld : goal.Stacked p.levels p.nesting.exhausted) {spent : Bool}
    (hq : q.nesting.exhausted = true → spent = true)
    (hgoal : goal.isSteady = false → spent = true) :
    Sketch.exprHeightOf slots ≤ goal.peak p.levels spent := by
  induction h generalizing spent with
  | token | absent | nil | argsDone | paramsDone | stmtsDone | itemsDone | calm =>
    simp [Sketch.exprHeightOf, Sketch.exprHeight]
  | missing => simp [Sketch.exprHeightOf, Sketch.exprHeight, Goal.peak, Phrase.peak]
  | stray =>
    rw [Sketch.exprHeightOf_singleton, Sketch.exprHeight, Sketch.exprHeightOf_map_token]
    exact Nat.zero_le _
  | @there first x y p q slots _ _ ih =>
    have hx := ih trivial hq fun hx => hgoal (Bool.and_eq_false_iff.mpr (.inl hx))
    exact Nat.le_trans hx (Nat.le_max_left ..)
  | @other first x y p q slots _ _ ih =>
    have hy := ih trivial hq fun hy => hgoal (Bool.and_eq_false_iff.mpr (.inr hy))
    exact Nat.le_trans hy (Nat.le_max_right ..)
  | @cons x xs p q r slots more hx hxs ihx ihxs =>
    have hsteady : (Goal.phrase (.seq xs)).isSteady = false → spent = true := fun h =>
      hgoal (Bool.and_eq_false_iff.mpr (.inr h))
    -- either the parts behind remember that the limit was met, or it counts as met anyway
    have hspent (hp : q.nesting.exhausted = true) : spent = true := by
      cases hxsteady : (Goal.phrase (.seq xs)).isSteady
      · exact hsteady hxsteady
      · exact hq (hxs.exhausted_of_isSteady hxsteady hp)
    have hfirst := ihx trivial hspent fun hx => hgoal (Bool.and_eq_false_iff.mpr (.inl hx))
    have hrest := ihxs trivial hq hsteady
    rw [hx.levels_eq] at hrest
    rw [Sketch.exprHeightOf_append]
    exact Nat.max_le.mpr ⟨Nat.le_trans hfirst (Nat.le_max_left ..),
      Nat.le_trans hrest (Nat.le_max_right ..)⟩
  | node _ ih =>
    rw [Sketch.exprHeightOf_singleton, Sketch.exprHeight]
    exact Nat.add_le_add_left (ih trivial hq hgoal) _
  | rescue _ _ ih => exact ih trivial hq nofun
  | @operators m p q r first slots hfirst _ ihfirst ihlinks =>
    have hheight := ihfirst trivial id nofun
    have hlevels := hfirst.levels_eq
    rw [Sketch.exprHeightOf_singleton] at hheight
    have hstacked : (Goal.links m first 0).Stacked q.levels q.nesting.exhausted := by
      rw [hlevels]
      exact .of_prefixed hfirst.levels_pos_of_prefixed hheight
    have hlinks := ihlinks hstacked hq nofun
    rwa [hlevels] at hlinks
  | linksDone _ | callsDone _ => exact hheld.held_le hq
  | linkRefused _ _ henter | callRefused _ henter =>
    exact hheld.held_le fun _ => hq (Nesting.exhausted_of_refused henter)
  | @link m k power lhs rhs t rest n q r slots _ _ henter hrhs _ ihrhs ihlinks =>
    have hlevels : Reader.levels ⟨t :: rest, n⟩ = Reader.levels ⟨rest, n.enter.2⟩ + 1 :=
      Reader.levels_of_granted (p := ⟨t :: rest, n⟩) henter
    have hcalm : (Reader.nesting ⟨t :: rest, n⟩).exhausted = false :=
      (Nesting.enter_eq_true_iff.mp henter).1
    have hheight := ihrhs trivial id nofun
    rw [Sketch.exprHeightOf_singleton] at hheight
    rw [hlevels, hcalm] at hheld
    -- the level of the operator is given back at the end only, so the loop goes on with one less
    have hstacked := hheld.link (t := t) hheight hrhs.levels_pos_of_operators
    rw [← hrhs.levels_eq] at hstacked
    have hlinks := ihlinks hstacked hq nofun
    rw [hrhs.levels_eq] at hlinks
    rw [hlevels]
    simpa [Goal.peak, Nat.add_assoc, Nat.add_comm 1 k] using hlinks
  | tooDeep henter =>
    rw [hq (Nesting.exhausted_of_refused henter), Sketch.exprHeightOf_singleton]
    exact Nat.le_add_left ..
  | @negated t rest n operand q henter _ hoperand ih =>
    have hlevels : Reader.levels ⟨t :: rest, n⟩ = Reader.levels ⟨rest, n.enter.2⟩ + 1 :=
      Reader.levels_of_granted (p := ⟨t :: rest, n⟩) henter
    have hheight := ih trivial hq nofun
    rw [Sketch.exprHeightOf_singleton] at hheight
    have hpos (hspent : spent = false) : 0 < Reader.levels ⟨rest, n.enter.2⟩ :=
      hoperand.levels_pos_of_prefixed (Bool.eq_false_iff.mpr fun h => by
        cases hspent.symm.trans (hq h))
    have hpeak := Goal.peak_prefixed_le hpos
    rw [hlevels, Sketch.exprHeightOf_singleton]
    refine Nat.le_trans ?_ hpeak
    simp only [Sketch.exprHeight, Sketch.exprHeightOf, Kind.isExpr, Bool.toNat_true, Nat.max_zero,
      Nat.zero_max]
    exact Nat.add_le_add_left hheight 1
  | @operand p q r callee slots henter _ hcallee _ ihcallee ihcalls =>
    have hlevels := Reader.levels_of_granted henter
    have hheight := ihcallee trivial id nofun
    rw [Sketch.exprHeightOf_singleton, Goal.peak, Phrase.peak_primary] at hheight
    have hstacked := Goal.Stacked.of_primary hheight
    rw [← hcallee.levels_eq] at hstacked
    have hcalls := ihcalls hstacked hq nofun
    rw [hcallee.levels_eq] at hcalls
    rw [hlevels]
    exact Nat.le_trans hcalls (Goal.peak_calls_le ..)
  | @call k callee clause p q r slots _ henter hclause _ ihclause ihcalls =>
    have hlevels := Reader.levels_of_granted henter
    have hcalm : p.nesting.exhausted = false := (Nesting.enter_eq_true_iff.mp henter).1
    have hheight := ihclause trivial id nofun
    rw [Sketch.exprHeightOf_singleton, Goal.peak, Phrase.peak_argClause] at hheight
    rw [hlevels, hcalm] at hheld
    have hstacked := hheld.call hheight
    rw [← hclause.levels_eq] at hstacked
    have hcalls := ihcalls hstacked hq nofun
    rw [hclause.levels_eq] at hcalls
    rw [hlevels]
    simpa [Goal.peak, Nat.add_assoc, Nat.add_comm 1 k] using hcalls
  | @argMore p q slots more t rest n _ harg _ hmore iharg ihmore =>
    have hheight := iharg trivial (fun h => hq (hmore.exhausted_of_isSteady rfl h)) nofun
    have hrest := ihmore trivial hq nofun
    have hlevels : Reader.levels ⟨rest, n⟩ = p.levels := harg.levels_eq
    rw [hlevels] at hrest
    rw [Sketch.exprHeightOf, Sketch.exprHeight_member rfl _ rfl]
    exact Nat.max_le.mpr ⟨hheight, hrest⟩
  | argLast _ _ _ ih =>
    have hheight := ih trivial hq nofun
    rw [Sketch.exprHeightOf_singleton, Sketch.exprHeight_member rfl _ rfl]
    exact hheight
  | paramMore _ _ _ ihparam ihmore =>
    have hheight := @ihparam trivial true (fun _ => rfl) fun _ => rfl
    have hrest := @ihmore trivial true (fun _ => rfl) fun _ => rfl
    rw [Sketch.exprHeightOf, Sketch.exprHeight_member rfl _ rfl]
    exact Nat.max_le.mpr ⟨hheight, hrest⟩
  | paramLast _ _ ih =>
    have hheight := @ih trivial true (fun _ => rfl) fun _ => rfl
    rw [Sketch.exprHeightOf_singleton, Sketch.exprHeight_member rfl _ rfl]
    exact hheight
  | stmtsMore _ hstmt _ ihstmt ihmore =>
    have hheight := @ihstmt trivial true (fun _ => rfl) fun _ => rfl
    have hrest := ihmore trivial hq hgoal
    rw [hstmt.levels_eq] at hrest
    rw [Goal.peak, Phrase.peak_stmt] at hheight
    rw [Sketch.exprHeightOf_append]
    exact Nat.max_le.mpr ⟨hheight, hrest⟩
  | itemsMore _ hitem _ ihitem ihmore =>
    have hheight := @ihitem trivial true (fun _ => rfl) fun _ => rfl
    have hrest := ihmore trivial hq hgoal
    rw [hitem.levels_eq] at hrest
    rw [Goal.peak, Phrase.peak_item] at hheight
    rw [Sketch.exprHeightOf_append]
    exact Nat.max_le.mpr ⟨hheight, hrest⟩

/-- The items of a file are no higher than the square of the limit, and one more. -/
theorem exprHeightOf_items_le {tokens : List Token}
    (h : Reads Phrase.items ⟨tokens, {}⟩ slots q) :
    Sketch.exprHeightOf slots ≤ maxNesting * maxNesting + 1 :=
  @exprHeightOf_le _ _ _ _ h trivial true (fun _ => rfl) fun _ => rfl

end Reads

end Verbatim
