import Verbatim.Proofs.Reading
import Verbatim.Proofs.Runs

/-!
# The grammar carries derivations out

Every production of the grammar, run on any parser, reads what its phrase derives and writes exactly
those slots down. In particular none of the insistences fails, no loop runs out of tokens and no
recursion out of levels: a production that recurses has entered a nesting level first, and a loop
that goes on has consumed a token.
-/

namespace Verbatim

namespace Reader

variable {p : Reader}

/-- A token whose kind is not the end of the text is there to be consumed. -/
theorem exists_of_next_eq {kind : Kind} (h : p.next = kind) (hkind : kind ≠ .eof) :
    ∃ t rest, p = ⟨t :: rest, p.nesting⟩ ∧ t.kind = kind := by
  obtain ⟨rest, n⟩ := p
  cases rest with
  | nil => exact absurd h.symm hkind
  | cons t rest => exact ⟨t, rest, rfl, h⟩

/-- Where no token is left, the text ends. -/
theorem next_eq_eof (h : p.rest.length = 0) : p.next = .eof := by
  rw [next, List.length_eq_zero_iff.mp h]

/-- At the end of the text no token is left. -/
theorem Sound.rest_eq_nil (hp : p.Sound) (h : p.next = .eof) : p.rest = [] := by
  obtain ⟨rest, n⟩ := p
  cases rest with
  | nil => rfl
  | cons t rest => exact absurd h (hp.kind_ne_eof t List.mem_cons_self)

/-- The limit is not passed when a level is entered. -/
theorem Shallow.enter (hp : p.Shallow) : p.enter.2.Shallow := by
  simp only [Shallow, Reader.enter] at hp ⊢
  cases h : p.nesting.enter.1 with
  | true =>
    have hdepth := Nesting.depth_enter_of_granted h
    have hlt := Nesting.depth_lt_of_granted h
    omega
  | false =>
    have hdepth := Nesting.depth_enter_of_refused h
    omega

theorem Sound.calm (hp : p.Sound) : p.calm.Sound := ⟨hp.kind_ne_eof, hp.shallow⟩

/-- A reader stays sound when it goes on by a token. -/
theorem Sound.tail {t : Token} {rest : List Token} {n : Nesting}
    (hp : (⟨t :: rest, n⟩ : Reader).Sound) : (⟨rest, n⟩ : Reader).Sound :=
  ⟨fun u hu => hp.kind_ne_eof u (List.mem_cons_of_mem _ hu), hp.shallow⟩

end Reader

namespace Reads

variable {x : Phrase} {p q : Reader} {slots : List Sketch}

/-- A phrase ends at the depth at which it started. -/
theorem depth_eq (h : Reads x p slots q) : q.nesting.depth = p.nesting.depth := by
  simpa [Goal.entered] using h.depth_add_entered (Nat.zero_le _)

/-- A phrase keeps a reader within the limit. -/
theorem shallow (h : Reads x p slots q) (hp : p.Shallow) : q.Shallow := by
  rw [Reader.Shallow, h.depth_eq]
  exact hp

/-- A phrase keeps a reader sound. -/
theorem sound (h : Reads x p slots q) (hp : p.Sound) : q.Sound :=
  ⟨fun t ht => hp.kind_ne_eof t (h.rest_suffix.subset ht), h.shallow hp.shallow⟩

/-- A phrase leaves no more tokens than there were. -/
theorem length_le (h : Reads x p slots q) : q.rest.length ≤ p.rest.length :=
  h.rest_suffix.length_le

/-- A node that starts with a token consumes one. -/
theorem length_lt_of_token {kind first : Kind} {parts : List Phrase}
    (h : Reads (Phrase.node kind (.token first :: parts)) p slots q) :
    q.rest.length < p.rest.length := by
  cases h with
  | node hparts =>
    cases hparts with
    | cons htoken hrest =>
      cases htoken with
      | token => exact Nat.lt_succ_of_le hrest.length_le

end Reads

namespace Grammar

/-- A production reads one slot as its phrase derives it, and hands its marker out. -/
def Fulfils (g : Grammar Completed) (x : Phrase) (p : Reader) : Prop :=
  ∃ s q, Reads x p [s] q ∧ ∀ d : Draft, Runs g p d (d.mark s) q (d.fill s)

/-- A production reads its slots as its phrase derives them. -/
def Carries (g : Grammar Unit) (x : Phrase) (p : Reader) : Prop :=
  ∃ slots q, Reads x p slots q ∧ ∀ d : Draft, Runs g p d () q (d.fills slots)

/-- What fulfils a phrase carries it out when its result is dropped. -/
theorem Fulfils.discard {g : Grammar Completed} {x : Phrase} {p : Reader} (h : Fulfils g x p) :
    Carries (discard g) x p := by
  obtain ⟨s, q, hreads, hruns⟩ := h
  exact ⟨[s], q, hreads, fun d => (hruns d).discard⟩

/-- A phrase that starts here is fulfilled as the first of two. -/
theorem Fulfils.there {g : Grammar Completed} {first : KindSet} {x y : Phrase} {p : Reader}
    (h : first.contains p.next = true) (hg : Fulfils g x p) : Fulfils g (.either first x y) p := by
  obtain ⟨s, q, hreads, hruns⟩ := hg
  exact ⟨s, q, .there h hreads, hruns⟩

/-- A phrase is fulfilled as the second of two if the first does not start here. -/
theorem Fulfils.other {g : Grammar Completed} {first : KindSet} {x y : Phrase} {p : Reader}
    (h : first.contains p.next = false) (hg : Fulfils g y p) : Fulfils g (.either first x y) p := by
  obtain ⟨s, q, hreads, hruns⟩ := hg
  exact ⟨s, q, .other h hreads, hruns⟩

/-- A phrase that starts here is carried out as the first of two. -/
theorem Carries.there {g : Grammar Unit} {first : KindSet} {x y : Phrase} {p : Reader}
    (h : first.contains p.next = true) (hg : Carries g x p) : Carries g (.either first x y) p := by
  obtain ⟨slots, q, hreads, hruns⟩ := hg
  exact ⟨slots, q, .there h hreads, hruns⟩

/-- A phrase is carried out as the second of two if the first does not start here. -/
theorem Carries.other {g : Grammar Unit} {first : KindSet} {x y : Phrase} {p : Reader}
    (h : first.contains p.next = false) (hg : Carries g y p) : Carries g (.either first x y) p := by
  obtain ⟨slots, q, hreads, hruns⟩ := hg
  exact ⟨slots, q, .other h hreads, hruns⟩

section Loops

variable {α : Type} {p q r : Reader} {d e f : Draft} {step : α → Grammar (ForInStep α)} {a b c : α}

/-- A loop that is bounded by the tokens left runs as one over the rest of the text. -/
theorem runs_repeatTokens (h : Runs (repeatAlong step p.rest a) p d b q e) :
    Runs (repeatTokens a step) p d b q e where
  fits := h.fits
  run x hp hx := by
    subst hp
    exact h.run x rfl hx

/-- A loop ends with the step that says so. -/
theorem runs_repeatAlong_done (h : Runs (step a) p d (.done b) q e) (bound : List Token) :
    Runs (repeatAlong step bound a) p d b q e := by
  cases bound with
  | nil => exact h.bind (.pure b)
  | cons t bound => exact h.bind (.pure b)

/-- A loop goes on with one token less. -/
theorem runs_repeatAlong_yield (h : Runs (step a) p d (.yield b) q e) {t : Token}
    {bound : List Token} (hmore : Runs (repeatAlong step bound b) q e c r f) :
    Runs (repeatAlong step (t :: bound) a) p d c r f :=
  h.bind hmore

end Loops

section Slots

variable {p : Reader}

/-- A node around the next token. -/
theorem runs_tokenNode {t : Token} {rest : List Token} {n : Nesting} (kind : Kind) (d : Draft) :
    Runs (tokenNode kind) ⟨t :: rest, n⟩ d (d.mark (.node kind false [.token t])) ⟨rest, n⟩
      (d.fill (.node kind false [.token t])) :=
  runs_start.bind (runs_advance.bind runs_complete)

/-- A node of a single token is fulfilled where the token stands. -/
theorem fulfils_tokenNode {kind node : Kind} (h : p.next = kind) (hkind : kind ≠ .eof) :
    Fulfils (tokenNode node) (.node node [.token kind]) p := by
  obtain ⟨t, rest, hp, ht⟩ := Reader.exists_of_next_eq h hkind
  rw [hp]
  exact ⟨_, _, .node (.cons (.token ht) .nil), runs_tokenNode node⟩

/-- Consuming the next token if it has the given kind. -/
theorem runs_eat_of_eq {t : Token} {rest : List Token} {n : Nesting} {kind : Kind}
    (h : t.kind = kind) (d : Draft) :
    Runs (eat kind) ⟨t :: rest, n⟩ d true ⟨rest, n⟩ (d.fill (.token t)) := by
  exact (runs_at kind).bind (.ite_pos (by simp [h]) (runs_advance.bind (.pure true)))

/-- A token of another kind is not eaten. -/
theorem runs_eat_of_ne {kind : Kind} (h : p.next ≠ kind) (d : Draft) :
    Runs (eat kind) p d false p d := by
  exact (runs_at kind).bind (.ite_neg (by simp [h]) (.pure false))

/-- A member of a list with a comma, after which the list goes on. -/
theorem runs_closeMember_comma {t : Token} {rest : List Token} {n : Nesting} {kind : Kind}
    {slots : List Sketch} {d : Draft} (h : t.kind = .comma) :
    Runs (closeMember ⟨d.size.toUInt32⟩ kind) ⟨t :: rest, n⟩ (d.start.fills slots) (.yield ())
      ⟨rest, n⟩ (d.fill (.node kind false (slots ++ [.token t]))) := by
  have hcomma : Runs (eatOrAbsent .comma) ⟨t :: rest, n⟩ (d.start.fills slots) true ⟨rest, n⟩
      (d.start.fills (slots ++ [.token t])) := by
    rw [← Draft.fills_fill]
    exact (runs_eat_of_eq h _).bind (.pure true)
  exact hcomma.bind (runs_complete.discard.bind (.pure _))

/-- A member of a list without a comma, which is the last one. -/
theorem runs_closeMember_last {kind : Kind} {slots : List Sketch} {d : Draft}
    (h : p.next ≠ .comma) :
    Runs (closeMember ⟨d.size.toUInt32⟩ kind) p (d.start.fills slots) (.done ()) p
      (d.fill (.node kind false (slots ++ [.absent]))) := by
  have hcomma : Runs (eatOrAbsent .comma) p (d.start.fills slots) false p
      (d.start.fills (slots ++ [.absent])) := by
    rw [← Draft.fills_fill]
    exact (runs_eat_of_ne h _).bind (runs_absent.bind (.pure false))
  exact hcomma.bind (runs_complete.discard.bind (.pure _))

/-- A required token is read or a placeholder stands in for it. -/
theorem carries_expect {kind : Kind} (hkind : kind ≠ .eof) :
    Carries (expect kind) (.required kind) p := by
  by_cases h : p.next = kind
  · obtain ⟨t, rest, hp, ht⟩ := Reader.exists_of_next_eq h hkind
    rw [hp]
    refine ⟨_, _, .there (by simp [ht]) (.token ht), fun d => ?_⟩
    exact (runs_eat_of_eq ht d).bind (.pure ())
  · refine ⟨_, _, .other (by simp [h]) .missing, fun d => ?_⟩
    exact (runs_eat_of_ne h d).bind (runs_missing kind).discard

end Slots

section Nodes

variable {α : Type} {answer : Draft → Sketch → α} {kind : Kind} {x : Phrase} {xs : List Phrase}
  {done : List Sketch} {p : Reader}

/-- The rest of a node, of which some slots are filled, reads the parts that are left and closes the
node. -/
def Ends (answer : Draft → Sketch → α) (kind : Kind) (xs : List Phrase) (done : List Sketch)
    (g : Marker → Grammar α) (p : Reader) : Prop :=
  ∃ slots q, Reads (.seq xs : Phrase) p slots q ∧ ∀ d : Draft,
    Runs (g ⟨d.size.toUInt32⟩) p (d.start.fills done)
      (answer d (.node kind false (done ++ slots))) q (d.fill (.node kind false (done ++ slots)))

/-- A node ends where nothing is left to be read of it. -/
theorem Ends.nil : Ends Draft.mark kind [] done (fun m => complete m kind) p :=
  ⟨[], p, .nil, fun _ => (done.append_nil).symm ▸ runs_complete⟩

theorem Ends.nil_discard :
    Ends (fun _ _ => ()) kind [] done (fun m => discard (complete m kind)) p :=
  ⟨[], p, .nil, fun _ => (done.append_nil).symm ▸ runs_complete.discard⟩

/-- One part of a node, and then the others. -/
theorem Ends.cons {g : Grammar Unit} {k : Marker → Unit → Grammar α} (hg : Carries g x p)
    (hk : ∀ slots q, Reads x p slots q → Ends answer kind xs (done ++ slots) (fun m => k m ()) q) :
    Ends answer kind (x :: xs) done (fun m => g >>= k m) p := by
  obtain ⟨slots, q, hreads, hruns⟩ := hg
  obtain ⟨more, r, hmore, hend⟩ := hk slots q hreads
  refine ⟨slots ++ more, r, .cons hreads hmore, fun d => ?_⟩
  have hpart := hruns (d.start.fills done)
  rw [Draft.fills_fills] at hpart
  rw [← List.append_assoc]
  exact hpart.bind (hend d)

/-- A choice by the next token. -/
theorem carries_choice {first : KindSet} {y : Phrase} {test : Grammar Bool} {g h : Grammar Unit}
    (htest : ∀ d : Draft, Runs test p d (first.contains p.next) p d)
    (hg : first.contains p.next = true → Carries g x p)
    (hh : first.contains p.next = false → Carries h y p) :
    Carries (test >>= fun b => if b = true then g else h) (.either first x y) p := by
  cases hb : first.contains p.next with
  | true =>
    obtain ⟨slots, q, hreads, hruns⟩ := hg hb
    exact ⟨slots, q, .there hb hreads, fun d => (htest d).bind (.ite_pos hb (hruns d))⟩
  | false =>
    obtain ⟨slots, q, hreads, hruns⟩ := hh hb
    exact ⟨slots, q, .other hb hreads, fun d => (htest d).bind (.ite_neg (by simp [hb]) (hruns d))⟩

/-- What follows a choice follows either part of it. -/
theorem ite_bind {β : Type} {c : Prop} [Decidable c] (g h : Grammar β) (k : β → Grammar α) :
    (if c then g else h) >>= k = if c then g >>= k else h >>= k := by
  split <;> rfl

/-- A part of a node that is chosen by the next token. -/
theorem Ends.either {first : KindSet} {y : Phrase} {test : Grammar Bool} {g h : Grammar Unit}
    {k : Marker → Unit → Grammar α} (htest : ∀ d : Draft, Runs test p d (first.contains p.next) p d)
    (hg : first.contains p.next = true → Carries g x p)
    (hh : first.contains p.next = false → Carries h y p)
    (hk : ∀ slots q, Reads (Phrase.either first x y) p slots q →
      Ends answer kind xs (done ++ slots) (fun m => k m ()) q) :
    Ends answer kind (.either first x y :: xs) done
      (fun m => test >>= fun b => if b = true then g >>= k m else h >>= k m) p := by
  have hends := Ends.cons (carries_choice htest hg hh) hk
  simpa only [bind_assoc, ite_bind] using hends

/-- A part of a node that is itself a node with one part. -/
theorem Ends.list {inner : Kind} {g : Grammar Unit} {k : Marker → Unit → Grammar α}
    (hg : Carries g x p) (hk : ∀ slots q, Reads (Phrase.node inner [x]) p slots q →
      Ends answer kind xs (done ++ slots) (fun m => k m ()) q) :
    Ends answer kind (.node inner [x] :: xs) done
      (fun m => start >>= fun a => g >>= fun _ => discard (complete a inner) >>= k m) p := by
  obtain ⟨slots, q, hreads, hruns⟩ := hg
  have hnode : Reads (Phrase.node inner [x]) p [.node inner false slots] q :=
    .node (slots.append_nil ▸ .cons hreads .nil)
  obtain ⟨more, r, hmore, hend⟩ := hk _ q hnode
  refine ⟨_, r, .cons hnode hmore, fun d => ?_⟩
  have hclose := hend d
  rw [← Draft.fills_fill] at hclose
  rw [← List.append_assoc]
  exact runs_start.bind ((hruns _).bind (runs_complete.discard.bind hclose))

/-- A node is fulfilled by opening a marker, reading its parts and completing it. -/
theorem fulfils_node {g : Marker → Grammar Completed} (h : Ends Draft.mark kind xs [] g p) :
    Fulfils (start >>= g) (.node kind xs) p := by
  obtain ⟨slots, q, hreads, hruns⟩ := h
  refine ⟨_, q, .node hreads, fun d => ?_⟩
  have hend := hruns d
  rw [Draft.fills_nil] at hend
  exact runs_start.bind hend

/-- A node is carried out by opening a marker, reading its parts and completing it. -/
theorem carries_node {g : Marker → Grammar Unit} (h : Ends (fun _ _ => ()) kind xs [] g p) :
    Carries (start >>= g) (.node kind xs) p := by
  obtain ⟨slots, q, hreads, hruns⟩ := h
  refine ⟨_, q, .node hreads, fun d => ?_⟩
  have hend := hruns d
  rw [Draft.fills_nil] at hend
  exact runs_start.bind hend

/-- What is done next may depend on the next kind. -/
theorem fulfils_peek {g : Kind → Grammar Completed} (h : Fulfils (g p.next) x p) :
    Fulfils (peek >>= g) x p := by
  obtain ⟨s, q, hreads, hruns⟩ := h
  exact ⟨s, q, hreads, fun d => runs_peek.bind (hruns d)⟩

theorem carries_peek {g : Kind → Grammar Unit} (h : Carries (g p.next) x p) :
    Carries (peek >>= g) x p := by
  obtain ⟨slots, q, hreads, hruns⟩ := h
  exact ⟨slots, q, hreads, fun d => runs_peek.bind (hruns d)⟩

/-- A check of the next kind that holds changes nothing. -/
theorem carries_insist {g : Unit → Grammar Unit} (h : p.next = kind) (hg : Carries (g ()) x p) :
    Carries (insist kind >>= g) x p := by
  subst h
  obtain ⟨slots, q, hreads, hruns⟩ := hg
  exact ⟨slots, q, hreads, fun d => runs_insist.bind (hruns d)⟩

/-- Consuming the next token carries out the phrase of its kind. -/
theorem carries_advance (h : p.next = kind) (hkind : kind ≠ .eof) :
    Carries advance (.token kind) p := by
  obtain ⟨t, rest, hp, ht⟩ := Reader.exists_of_next_eq h hkind
  rw [hp]
  exact ⟨_, _, .token ht, fun d => runs_advance⟩

theorem carries_absent : Carries absent .absent p :=
  ⟨_, p, .absent, fun _ => runs_absent⟩

theorem carries_missing : Carries (discard (missing kind)) (.missing kind) p :=
  ⟨_, p, .missing, fun _ => (runs_missing kind).discard⟩

/-- Looking for one kind is looking for a set with one kind. -/
theorem runs_at_single (d : Draft) :
    Runs (at? kind) p d ((KindSet.single kind).contains p.next) p d := by
  rw [KindSet.contains_single]
  exact runs_at kind

end Nodes

end Grammar

end Verbatim
