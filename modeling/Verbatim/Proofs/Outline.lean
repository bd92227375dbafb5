import Verbatim.Proofs.Reading

/-!
# What the kinds decide

The grammar looks at the kinds of tokens and at nothing else of them. A derivation therefore stays a
derivation, by the same rules, when everything but the kind is taken from every token. At most one
rule applies wherever the reader stands, so that a derivation is determined by where it starts. Both
together say that tokens of the same kinds are drawn alike.
-/

namespace Verbatim

/-- What is left of a token when only its kind is kept. -/
def Token.bare (t : Token) : Token := ⟨[], t.kind, [], 0, []⟩

namespace Sketch

mutual
/-- The sketch with bare tokens. -/
def bare : Sketch → Sketch
  | token t => token t.bare
  | missing kind => missing kind
  | absent => absent
  | node kind late slots => node kind late (bareAll slots)
/-- Several sketches with bare tokens. -/
def bareAll : List Sketch → List Sketch
  | [] => []
  | s :: rest => s.bare :: bareAll rest
end

theorem bareAll_append (a b : List Sketch) : bareAll (a ++ b) = bareAll a ++ bareAll b := by
  induction a with
  | nil => rfl
  | cons s rest ih => simp [bareAll, ih]

theorem bareAll_map_token (tokens : List Token) :
    bareAll (tokens.map token) = (tokens.map Token.bare).map token := by
  induction tokens with
  | nil => rfl
  | cons t rest ih => simp [bareAll, bare, ih]

end Sketch

namespace Reader

/-- The reader with bare tokens. -/
def bare (p : Reader) : Reader := ⟨p.rest.map Token.bare, p.nesting⟩

@[simp] theorem next_bare (p : Reader) : p.bare.next = p.next := by
  obtain ⟨rest, n⟩ := p
  cases rest <;> rfl

@[simp] theorem isStuck_bare (p : Reader) (stop : KindSet) :
    p.bare.isStuck stop = p.isStuck stop := by
  simp only [isStuck, next_bare]
  rfl

@[simp] theorem atArgument_bare (p : Reader) : p.bare.atArgument = p.atArgument := by
  simp only [atArgument, next_bare]
  rfl

/-- Readers before tokens of the same kinds are the same reader when the tokens are bare. -/
theorem bare_eq_bare {a b : List Token} {n : Nesting} (h : a.map Token.kind = b.map Token.kind) :
    bare ⟨a, n⟩ = bare ⟨b, n⟩ := by
  have hbare : Token.bare = (fun kind => ⟨[], kind, [], 0, []⟩) ∘ Token.kind := rfl
  simp only [bare, hbare, ← List.map_map, h]

end Reader

/-- What is being read, with bare tokens in what was read before. -/
def Goal.bare : Goal → Goal
  | phrase x => phrase x
  | links minPower lhs entered => links minPower lhs.bare entered
  | calls callee entered => calls callee.bare entered

namespace Reads

variable {goal : Goal} {p q : Reader} {slots : List Sketch}

/-- Derivations only look at kinds. -/
theorem bare (h : Reads goal p slots q) :
    Reads goal.bare p.bare (Sketch.bareAll slots) q.bare := by
  induction h with
  | token ht => exact .token ht
  | missing => exact .missing
  | absent => exact .absent
  | there hfirst _ ih => exact .there (by rwa [Reader.next_bare]) ih
  | other hfirst _ ih => exact .other (by rwa [Reader.next_bare]) ih
  | nil => exact .nil
  | cons _ _ ihx ihxs =>
    rw [Sketch.bareAll_append]
    exact .cons ihx ihxs
  | node _ ih => exact .node ih
  | @stray t rest n stop =>
    have htake : (rest.map Token.bare).takeWhile (fun u => !stop.contains u.kind) =
        (rest.takeWhile fun u => !stop.contains u.kind).map Token.bare := List.takeWhile_map ..
    have hdrop : (rest.map Token.bare).dropWhile (fun u => !stop.contains u.kind) =
        (rest.dropWhile fun u => !stop.contains u.kind).map Token.bare := List.dropWhile_map ..
    have hstray : Reads (Phrase.stray stop) ⟨t.bare :: rest.map Token.bare, n⟩ _ _ := .stray
    rw [htake, hdrop] at hstray
    simp only [Sketch.bareAll, Sketch.bare, Sketch.bareAll_map_token]
    exact hstray
  | calm hstuck => exact .calm (by rwa [Reader.isStuck_bare])
  | rescue hstuck _ ih => exact .rescue (by rwa [Reader.isStuck_bare]) ih
  | operators _ _ ihfirst ihlinks => exact .operators ihfirst ihlinks
  | linksDone hdone => exact .linksDone (by rwa [Reader.next_bare])
  | linkRefused hpower hm henter => exact .linkRefused (by rwa [Reader.next_bare]) hm henter
  | link hpower hm henter _ _ ihrhs ihlinks => exact .link hpower hm henter ihrhs ihlinks
  | tooDeep henter => exact .tooDeep henter
  | @negated t rest n operand q henter hminus _ ih =>
    exact @Reads.negated t.bare _ n operand.bare q.bare henter hminus ih
  | @operand p q r callee slots henter hminus _ _ ihcallee ihcalls =>
    have hminus' : p.bare.next ≠ .minus := by rwa [Reader.next_bare]
    exact @Reads.operand p.bare q.bare r.bare _ _ henter hminus' ihcallee ihcalls
  | callsDone hnext => exact .callsDone (by rwa [Reader.next_bare])
  | callRefused hnext henter => exact .callRefused (by rwa [Reader.next_bare]) henter
  | call hnext henter _ _ ihclause ihcalls =>
    exact .call (by rwa [Reader.next_bare]) henter ihclause ihcalls
  | argsDone hat => exact .argsDone (by rwa [Reader.atArgument_bare])
  | argMore hat _ hcomma _ iharg ihmore =>
    simp only [Sketch.bareAll, Sketch.bare, Sketch.bareAll_append]
    exact .argMore (by rwa [Reader.atArgument_bare]) iharg hcomma ihmore
  | argLast hat _ hcomma ih =>
    simp only [Sketch.bareAll, Sketch.bare, Sketch.bareAll_append]
    exact .argLast (by rwa [Reader.atArgument_bare]) ih (by rwa [Reader.next_bare])
  | paramsDone hnext => exact .paramsDone (by rwa [Reader.next_bare])
  | paramMore _ hcomma _ ihparam ihmore =>
    simp only [Sketch.bareAll, Sketch.bare, Sketch.bareAll_append]
    exact .paramMore ihparam hcomma ihmore
  | paramLast _ hcomma ih =>
    simp only [Sketch.bareAll, Sketch.bare, Sketch.bareAll_append]
    exact .paramLast ih (by rwa [Reader.next_bare])
  | stmtsDone hdone => exact .stmtsDone (by rwa [Reader.next_bare])
  | stmtsMore hdone _ _ ihstmt ihmore =>
    rw [Sketch.bareAll_append]
    exact .stmtsMore (by rwa [Reader.next_bare]) ihstmt ihmore
  | itemsDone hdone => exact .itemsDone (by rwa [Reader.next_bare])
  | itemsMore hdone _ _ ihitem ihmore =>
    rw [Sketch.bareAll_append]
    exact .itemsMore (by rwa [Reader.next_bare]) ihitem ihmore

/-- Parts that begin with a token are read where that token is next. -/
theorem next_of_token {kind : Kind} {parts : List Phrase}
    (h : Reads (Phrase.seq (.token kind :: parts)) p slots q) : p.next = kind := by
  cases h with
  | cons hx _ =>
    cases hx with
    | token ht => exact ht

/-- A derivation is determined by its goal and by where it starts. -/
theorem unique (h : Reads goal p slots q) {slots' : List Sketch} {q' : Reader}
    (h' : Reads goal p slots' q') : slots = slots' ∧ q = q' := by
  -- the induction is on the first derivation; what its last rule asks of the next token and of the
  -- nesting rules out every other rule for the second one
  induction h generalizing slots' q' with
  | token _ | missing | absent | nil | stray =>
    cases h'
    exact ⟨rfl, rfl⟩
  | there hfirst _ ih =>
    cases h' with
    | there _ hx => exact ih hx
    | other hnot _ => simp [hfirst] at hnot
  | other hnot _ ih =>
    cases h' with
    | there hfirst _ => simp [hfirst] at hnot
    | other _ hy => exact ih hy
  | cons _ _ ihx ihxs =>
    cases h' with
    | cons hx hxs =>
      obtain ⟨rfl, rfl⟩ := ihx hx
      obtain ⟨rfl, rfl⟩ := ihxs hxs
      exact ⟨rfl, rfl⟩
  | node _ ih =>
    cases h' with
    | node hparts =>
      obtain ⟨rfl, rfl⟩ := ih hparts
      exact ⟨rfl, rfl⟩
  | calm hcalm =>
    cases h' with
    | calm _ => exact ⟨rfl, rfl⟩
    | rescue hstuck _ => simp [hcalm] at hstuck
  | rescue hstuck _ ih =>
    cases h' with
    | calm hcalm => simp [hcalm] at hstuck
    | rescue _ hs => exact ih hs
  | operators _ _ ihfirst ihlinks =>
    cases h' with
    | operators hfirst hlinks =>
      obtain ⟨hs, rfl⟩ := ihfirst hfirst
      obtain rfl := List.singleton_inj.mp hs
      exact ihlinks hlinks
  | linksDone hdone =>
    cases h' with
    | linksDone _ => exact ⟨rfl, rfl⟩
    | linkRefused hpower hm _ => exact absurd (hdone _ hpower) (Nat.not_le_of_lt hm)
    | link hpower hm _ _ _ => exact absurd (hdone _ hpower) (Nat.not_le_of_lt hm)
  | linkRefused hpower hm henter =>
    cases h' with
    | linksDone hdone => exact absurd (hdone _ hpower) (Nat.not_le_of_lt hm)
    | linkRefused _ _ _ => exact ⟨rfl, rfl⟩
    | link _ _ hgranted _ _ => cases henter.symm.trans hgranted
  | link hpower hm hgranted _ _ ihrhs ihlinks =>
    cases h' with
    | linksDone hdone => exact absurd (hdone _ hpower) (Nat.not_le_of_lt hm)
    | linkRefused _ _ henter => cases hgranted.symm.trans henter
    | link hpower' _ _ hrhs hlinks =>
      obtain rfl := Option.some.inj (hpower.symm.trans hpower')
      obtain ⟨hs, rfl⟩ := ihrhs hrhs
      obtain rfl := List.singleton_inj.mp hs
      exact ihlinks hlinks
  | tooDeep henter =>
    cases h' with
    | tooDeep _ => exact ⟨rfl, rfl⟩
    | negated hgranted _ _ => cases henter.symm.trans hgranted
    | operand hgranted _ _ _ => cases henter.symm.trans hgranted
  | negated hgranted hminus _ ih =>
    cases h' with
    | tooDeep henter => cases hgranted.symm.trans henter
    | negated _ _ hoperand =>
      obtain ⟨hs, rfl⟩ := ih hoperand
      obtain rfl := List.singleton_inj.mp hs
      exact ⟨rfl, rfl⟩
    | operand _ hnot _ _ => exact absurd hminus hnot
  | operand hgranted hnot _ _ ihcallee ihcalls =>
    cases h' with
    | tooDeep henter => cases hgranted.symm.trans henter
    | negated _ hminus _ => exact absurd hminus hnot
    | operand _ _ hcallee hcalls =>
      obtain ⟨hs, rfl⟩ := ihcallee hcallee
      obtain rfl := List.singleton_inj.mp hs
      obtain ⟨rfl, rfl⟩ := ihcalls hcalls
      exact ⟨rfl, rfl⟩
  | callsDone hnot =>
    cases h' with
    | callsDone _ => exact ⟨rfl, rfl⟩
    | callRefused hnext _ => exact absurd hnext hnot
    | call hnext _ _ _ => exact absurd hnext hnot
  | callRefused hnext henter =>
    cases h' with
    | callsDone hnot => exact absurd hnext hnot
    | callRefused _ _ => exact ⟨rfl, rfl⟩
    | call _ hgranted _ _ => cases henter.symm.trans hgranted
  | call hnext hgranted _ _ ihclause ihcalls =>
    cases h' with
    | callsDone hnot => exact absurd hnext hnot
    | callRefused _ henter => cases hgranted.symm.trans henter
    | call _ _ hclause hcalls =>
      obtain ⟨hs, rfl⟩ := ihclause hclause
      obtain rfl := List.singleton_inj.mp hs
      exact ihcalls hcalls
  | argsDone hnot =>
    cases h' with
    | argsDone _ => exact ⟨rfl, rfl⟩
    | argMore hat _ _ _ => cases hnot.symm.trans hat
    | argLast hat _ _ => cases hnot.symm.trans hat
  | argMore hat _ hcomma _ iharg ihmore =>
    cases h' with
    | argsDone hnot => cases hnot.symm.trans hat
    | argMore _ harg _ hmore =>
      obtain ⟨rfl, hq⟩ := iharg harg
      cases hq
      obtain ⟨rfl, rfl⟩ := ihmore hmore
      exact ⟨rfl, rfl⟩
    | argLast _ harg hnot =>
      obtain ⟨rfl, rfl⟩ := iharg harg
      exact absurd hcomma hnot
  | argLast hat _ hnot iharg =>
    cases h' with
    | argsDone hdone => cases hdone.symm.trans hat
    | argMore _ harg hcomma _ =>
      obtain ⟨rfl, rfl⟩ := iharg harg
      exact absurd hcomma hnot
    | argLast _ harg _ =>
      obtain ⟨rfl, rfl⟩ := iharg harg
      exact ⟨rfl, rfl⟩
  | paramsDone hnot =>
    cases h' with
    | paramsDone _ => exact ⟨rfl, rfl⟩
    | paramMore hparam _ _ => exact absurd hparam.next_of_token hnot
    | paramLast hparam _ => exact absurd hparam.next_of_token hnot
  | paramMore hparam hcomma _ ihparam ihmore =>
    cases h' with
    | paramsDone hnot => exact absurd hparam.next_of_token hnot
    | paramMore hparam' _ hmore =>
      obtain ⟨rfl, hq⟩ := ihparam hparam'
      cases hq
      obtain ⟨rfl, rfl⟩ := ihmore hmore
      exact ⟨rfl, rfl⟩
    | paramLast hparam' hnot =>
      obtain ⟨rfl, rfl⟩ := ihparam hparam'
      exact absurd hcomma hnot
  | paramLast hparam hnot ihparam =>
    cases h' with
    | paramsDone hdone => exact absurd hparam.next_of_token hdone
    | paramMore hparam' hcomma _ =>
      obtain ⟨rfl, rfl⟩ := ihparam hparam'
      exact absurd hcomma hnot
    | paramLast hparam' _ =>
      obtain ⟨rfl, rfl⟩ := ihparam hparam'
      exact ⟨rfl, rfl⟩
  | stmtsDone hdone =>
    cases h' with
    | stmtsDone _ => exact ⟨rfl, rfl⟩
    | stmtsMore hmore _ _ => cases hdone.symm.trans hmore
  | stmtsMore hmore _ _ ihstmt ihmore =>
    cases h' with
    | stmtsDone hdone => cases hdone.symm.trans hmore
    | stmtsMore _ hstmt hstmts =>
      obtain ⟨rfl, rfl⟩ := ihstmt hstmt
      obtain ⟨rfl, rfl⟩ := ihmore hstmts
      exact ⟨rfl, rfl⟩
  | itemsDone hdone =>
    cases h' with
    | itemsDone _ => exact ⟨rfl, rfl⟩
    | itemsMore hmore _ _ => exact absurd hdone hmore
  | itemsMore hmore _ _ ihitem ihmore =>
    cases h' with
    | itemsDone hdone => exact absurd hdone hmore
    | itemsMore _ hitem hitems =>
      obtain ⟨rfl, rfl⟩ := ihitem hitem
      obtain ⟨rfl, rfl⟩ := ihmore hitems
      exact ⟨rfl, rfl⟩

end Reads

end Verbatim
