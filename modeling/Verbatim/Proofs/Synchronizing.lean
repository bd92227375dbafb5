import Verbatim.Collection
import Verbatim.Proofs.Boundaries
import Verbatim.Proofs.Recovery
import Verbatim.Proofs.Valuing

/-!
# Functions are read apart

Wherever the grammar looks at the next token below the items of a file, it takes the keyword of a
function for the end of the text. So what is read before such a keyword is read in the same way
when the text ends there. Between items no nesting level is entered and the limit counts as not met,
so what is read from the keyword on is read as if the text started there.
-/

namespace Verbatim

/-- Two nestings that the grammar cannot tell apart. -/
structure Nesting.Alike (n n' : Nesting) : Prop where
  depth_eq : n'.depth = n.depth
  exhausted_eq : n'.exhausted = n.exhausted

theorem Nesting.Alike.enter {n n' : Nesting} (h : n.Alike n') :
    n'.enter.1 = n.enter.1 ∧ n.enter.2.Alike n'.enter.2 := by
  obtain ⟨hdepth, hexhausted⟩ := h
  unfold Nesting.enter
  rw [hdepth, hexhausted]
  split
  · exact ⟨rfl, rfl, rfl⟩
  · split <;> exact ⟨rfl, rfl, rfl⟩

namespace Phrase

mutual
/-- Whether a phrase takes the keyword of a function for the end of the text. -/
def syncs : Phrase → Bool
  | token _ | missing _ | absent => true
  | either first there other =>
    first.contains .eof == first.contains .funcKw && there.syncs && other.syncs
  | seq parts | node _ parts => allSync parts
  | stray stop | recovery stop => stop.contains .funcKw
  | operators _ | prefixed | args | params | stmts => true
  | items => false
/-- Whether several phrases take the keyword of a function for the end of the text. -/
def allSync : List Phrase → Bool
  | [] => true
  | x :: rest => x.syncs && allSync rest
end

end Phrase

/-- Whether a goal takes the keyword of a function for the end of the text. -/
def Goal.syncs : Goal → Bool
  | phrase x => x.syncs
  | links _ _ _ | calls _ _ => true

/-- A reader with more tokens behind the ones it has left. -/
structure Reader.Extends (more : List Token) (p p' : Reader) : Prop where
  rest_eq : p'.rest = p.rest ++ more
  nesting : p.nesting.Alike p'.nesting

namespace Reader.Extends

variable {more : List Token} {p p' : Reader}

theorem of_alike {n n' : Nesting} (h : n.Alike n') (rest : List Token) :
    Extends more ⟨rest, n⟩ ⟨rest ++ more, n'⟩ := ⟨rfl, h⟩

/-- A reader before a token has it still to come. -/
theorem exists_of_cons {t : Token} {rest : List Token} {n : Nesting}
    (h : Extends more ⟨t :: rest, n⟩ p') :
    ∃ n', p' = ⟨t :: (rest ++ more), n'⟩ ∧ n.Alike n' := by
  obtain ⟨rest', n'⟩ := p'
  obtain rfl : rest' = t :: rest ++ more := h.rest_eq
  exact ⟨n', rfl, h.nesting⟩

/-- The next token is the same, if there is one left. -/
theorem next_of_ne_eof (h : p.Extends more p') (hp : p.next ≠ .eof) : p'.next = p.next := by
  obtain ⟨rest, n⟩ := p
  cases rest with
  | nil => exact absurd rfl hp
  | cons t rest =>
    obtain ⟨n', rfl, -⟩ := h.exists_of_cons
    rfl

/-- What is decided by the next token is decided alike, if the end of the text and the keyword of a
function are taken for the same. -/
theorem look {α : Type} (f : Kind → α) (h : p.Extends more p')
    (hmore : ∀ t ∈ more.head?, t.kind = .funcKw) (hf : more = [] ∨ f .eof = f .funcKw) :
    f p'.next = f p.next := by
  obtain ⟨rest, n⟩ := p
  obtain ⟨rest', n'⟩ := p'
  obtain rfl : rest' = rest ++ more := h.rest_eq
  cases rest with
  | cons t rest => rfl
  | nil =>
    cases more with
    | nil => rfl
    | cons t more =>
      have hfunc : t.kind = .funcKw := hmore t rfl
      rcases hf with hnil | hf
      · cases hnil
      · simpa [next, hfunc] using hf.symm

/-- Whether the next token has a kind is seen alike. -/
theorem next_eq (h : p.Extends more p') (hmore : ∀ t ∈ more.head?, t.kind = .funcKw) {kind : Kind}
    (heof : kind ≠ .eof) (hfunc : kind ≠ .funcKw) : (p'.next = kind) = (p.next = kind) :=
  h.look (· = kind) hmore
    (.inr (propext ⟨fun h => absurd h.symm heof, fun h => absurd h.symm hfunc⟩))

theorem enter (h : p.Extends more p') :
    p'.enter.1 = p.enter.1 ∧ p.enter.2.Extends more p'.enter.2 :=
  ⟨h.nesting.enter.1, h.rest_eq, h.nesting.enter.2⟩

theorem leave (h : p.Extends more p') (levels : Nat) :
    (p.leave levels).Extends more (p'.leave levels) :=
  ⟨h.rest_eq, congrArg (· - levels) h.nesting.depth_eq, h.nesting.exhausted_eq⟩

theorem calm (h : p.Extends more p') : p.calm.Extends more p'.calm :=
  ⟨h.rest_eq, h.nesting.depth_eq, rfl⟩

theorem atArgument (h : p.Extends more p') (hmore : ∀ t ∈ more.head?, t.kind = .funcKw) :
    p'.atArgument = p.atArgument := by
  have hlook := h.look
    (fun kind => (kind == .comma || Grammar.exprFirst.contains kind) && !p.nesting.exhausted) hmore
    (.inr rfl)
  rw [Reader.atArgument, h.nesting.exhausted_eq]
  exact hlook

theorem isStuck (h : p.Extends more p') (hmore : ∀ t ∈ more.head?, t.kind = .funcKw)
    {stop : KindSet} (hstop : more = [] ∨ stop.contains .funcKw = true) :
    p'.isStuck stop = p.isStuck stop := by
  have hlook := h.look
    (fun kind => p.nesting.exhausted && !(kind == .eof) && !stop.contains kind) hmore
    (hstop.imp_right fun hstop => by simp [hstop])
  rw [Reader.isStuck, h.nesting.exhausted_eq]
  exact hlook

end Reader.Extends

/-- A run of tokens ends before the same token when more tokens follow that it does not go into. -/
theorem takeWhile_append_of_head? {α : Type} {p : α → Bool} {rest more : List α}
    (h : ∀ t ∈ more.head?, p t = false) :
    (rest ++ more).takeWhile p = rest.takeWhile p ∧
      (rest ++ more).dropWhile p = rest.dropWhile p ++ more := by
  induction rest with
  | nil =>
    cases more with
    | nil => exact ⟨rfl, rfl⟩
    | cons t more => simp [h t rfl]
  | cons t rest ih => by_cases ht : p t = true <;> simp [ht, ih]

namespace Reads

open Grammar

variable {more : List Token} {goal : Goal} {p q : Reader} {slots : List Sketch}

/-- A derivation stays one when the keyword of a function follows, with anything behind it; nothing
of that is read. With nothing behind, it stays one in every nesting that looks the same. -/
theorem extend (hmore : ∀ t ∈ more.head?, t.kind = .funcKw) (h : Reads goal p slots q)
    (hgoal : more = [] ∨ goal.syncs = true) {p' : Reader} (hp : p.Extends more p') :
    ∃ q', q.Extends more q' ∧ Reads goal p' slots q' := by
  induction h generalizing p' with
  | token ht =>
    obtain ⟨n', rfl, hn⟩ := hp.exists_of_cons
    exact ⟨_, ⟨rfl, hn⟩, .token ht⟩
  | missing => exact ⟨_, hp, .missing⟩
  | absent => exact ⟨_, hp, .absent⟩
  | nil => exact ⟨_, hp, .nil⟩
  | there hfirst _ ih =>
    have hsync := hgoal.imp_right fun h => Bool.and_eq_true_iff.mp h
    have hboth := hsync.imp_right fun h => Bool.and_eq_true_iff.mp h.1
    obtain ⟨q', hq, hx⟩ := ih (hboth.imp_right fun h => h.2) hp
    have hlook := hp.look _ hmore (hboth.imp_right fun h => beq_iff_eq.mp h.1)
    exact ⟨q', hq, .there (hlook.trans hfirst) hx⟩
  | other hfirst _ ih =>
    have hsync := hgoal.imp_right fun h => Bool.and_eq_true_iff.mp h
    have hboth := hsync.imp_right fun h => Bool.and_eq_true_iff.mp h.1
    obtain ⟨q', hq, hy⟩ := ih (hsync.imp_right fun h => h.2) hp
    have hlook := hp.look _ hmore (hboth.imp_right fun h => beq_iff_eq.mp h.1)
    exact ⟨q', hq, .other (hlook.trans hfirst) hy⟩
  | cons _ _ ihx ihxs =>
    have hsync := hgoal.imp_right fun h => Bool.and_eq_true_iff.mp h
    obtain ⟨q', hq, hx⟩ := ihx (hsync.imp_right fun h => h.1) hp
    obtain ⟨r', hr, hxs⟩ := ihxs (hsync.imp_right fun h => h.2) hq
    exact ⟨r', hr, .cons hx hxs⟩
  | node _ ih =>
    obtain ⟨q', hq, hparts⟩ := ih hgoal hp
    exact ⟨q', hq, .node hparts⟩
  | @stray t rest n stop =>
    obtain ⟨n', rfl, hn⟩ := hp.exists_of_cons
    have hhead : ∀ u ∈ more.head?, (!stop.contains u.kind) = false := by
      intro u hu
      rcases hgoal with rfl | hstop
      · cases hu
      · rw [hmore u hu, Bool.not_eq_false']
        exact hstop
    obtain ⟨htake, hdrop⟩ := @takeWhile_append_of_head? _ _ rest _ hhead
    rw [← htake]
    exact ⟨_, ⟨hdrop, hn⟩, .stray⟩
  | calm hstuck => exact ⟨_, hp.calm, .calm (by rwa [hp.isStuck hmore hgoal])⟩
  | rescue hstuck _ ih =>
    obtain ⟨q', hq, hs⟩ := ih hgoal hp.calm
    exact ⟨q', hq, .rescue (by rwa [hp.isStuck hmore hgoal]) hs⟩
  | operators _ _ ihfirst ihlinks =>
    obtain ⟨q', hq, hfirst⟩ := ihfirst (.inr rfl) hp
    obtain ⟨r', hr, hlinks⟩ := ihlinks (.inr rfl) hq
    exact ⟨r', hr, .operators hfirst hlinks⟩
  | linksDone hdone =>
    exact ⟨_, hp.leave _, .linksDone (by rwa [hp.look bindingPower? hmore (.inr rfl)])⟩
  | linkRefused hpower hm henter =>
    refine ⟨_, hp.enter.2.leave _, .linkRefused ?_ hm (hp.enter.1.trans henter)⟩
    rwa [hp.look bindingPower? hmore (.inr rfl)]
  | link hpower hm henter _ _ ihrhs ihlinks =>
    obtain ⟨n', rfl, hn⟩ := hp.exists_of_cons
    obtain ⟨q', hq, hrhs⟩ := ihrhs (.inr rfl) (.of_alike hn.enter.2 _)
    obtain ⟨r', hr, hlinks⟩ := ihlinks (.inr rfl) hq
    exact ⟨r', hr, .link hpower hm (hn.enter.1.trans henter) hrhs hlinks⟩
  | tooDeep henter => exact ⟨_, hp.enter.2, .tooDeep (hp.enter.1.trans henter)⟩
  | negated henter hminus _ ih =>
    obtain ⟨n', rfl, hn⟩ := hp.exists_of_cons
    obtain ⟨q', hq, hoperand⟩ := ih (.inr rfl) (.of_alike hn.enter.2 _)
    exact ⟨_, hq.leave 1, .negated (hn.enter.1.trans henter) hminus hoperand⟩
  | operand henter hminus _ _ ihcallee ihcalls =>
    obtain ⟨q', hq, hcallee⟩ := ihcallee (.inr rfl) hp.enter.2
    obtain ⟨r', hr, hcalls⟩ := ihcalls (.inr rfl) hq
    refine ⟨_, hr.leave 1, .operand (hp.enter.1.trans henter) ?_ hcallee hcalls⟩
    rwa [ne_eq, hp.next_eq hmore (by decide) (by decide)]
  | callsDone hnext =>
    refine ⟨_, hp.leave _, .callsDone ?_⟩
    rwa [ne_eq, hp.next_eq hmore (by decide) (by decide)]
  | callRefused hnext henter =>
    refine ⟨_, hp.enter.2.leave _, .callRefused ?_ (hp.enter.1.trans henter)⟩
    rwa [hp.next_eq hmore (by decide) (by decide)]
  | call hnext henter _ _ ihclause ihcalls =>
    obtain ⟨q', hq, hclause⟩ := ihclause (.inr rfl) hp.enter.2
    obtain ⟨r', hr, hcalls⟩ := ihcalls (.inr rfl) hq
    refine ⟨r', hr, .call ?_ (hp.enter.1.trans henter) hclause hcalls⟩
    rwa [hp.next_eq hmore (by decide) (by decide)]
  | argsDone hat => exact ⟨_, hp, .argsDone (by rwa [hp.atArgument hmore])⟩
  | argMore hat _ hcomma _ iharg ihmore =>
    obtain ⟨q', hq, harg⟩ := iharg (.inr rfl) hp
    obtain ⟨n', rfl, hn⟩ := hq.exists_of_cons
    obtain ⟨r', hr, hargs⟩ := ihmore (.inr rfl) (.of_alike hn _)
    exact ⟨r', hr, .argMore (by rwa [hp.atArgument hmore]) harg hcomma hargs⟩
  | argLast hat _ hcomma ih =>
    obtain ⟨q', hq, harg⟩ := ih (.inr rfl) hp
    refine ⟨q', hq, .argLast (by rwa [hp.atArgument hmore]) harg ?_⟩
    rwa [ne_eq, hq.next_eq hmore (by decide) (by decide)]
  | paramsDone hnext =>
    refine ⟨_, hp, .paramsDone ?_⟩
    rwa [ne_eq, hp.next_eq hmore (by decide) (by decide)]
  | paramMore _ hcomma _ ihparam ihmore =>
    obtain ⟨q', hq, hparam⟩ := ihparam (.inr rfl) hp
    obtain ⟨n', rfl, hn⟩ := hq.exists_of_cons
    obtain ⟨r', hr, hparams⟩ := ihmore (.inr rfl) (.of_alike hn _)
    exact ⟨r', hr, .paramMore hparam hcomma hparams⟩
  | paramLast _ hcomma ih =>
    obtain ⟨q', hq, hparam⟩ := ih (.inr rfl) hp
    refine ⟨q', hq, .paramLast hparam ?_⟩
    rwa [ne_eq, hq.next_eq hmore (by decide) (by decide)]
  | stmtsDone hdone =>
    have hlook := hp.look (fun kind => kind == .eof || blockEnd.contains kind) hmore (.inr rfl)
    exact ⟨_, hp, .stmtsDone (hlook.trans hdone)⟩
  | stmtsMore hdone _ _ ihstmt ihmore =>
    have hlook := hp.look (fun kind => kind == .eof || blockEnd.contains kind) hmore (.inr rfl)
    obtain ⟨q', hq, hstmt⟩ := ihstmt (.inr rfl) hp
    obtain ⟨r', hr, hstmts⟩ := ihmore (.inr rfl) hq
    exact ⟨r', hr, .stmtsMore (hlook.trans hdone) hstmt hstmts⟩
  | itemsDone hdone =>
    obtain rfl := hgoal.resolve_right Bool.false_ne_true
    exact ⟨_, hp, .itemsDone ((hp.look id hmore (.inl rfl)).trans hdone)⟩
  | itemsMore hdone _ _ ihitem ihmore =>
    obtain rfl := hgoal.resolve_right Bool.false_ne_true
    obtain ⟨q', hq, hitem⟩ := ihitem (.inl rfl) hp
    obtain ⟨r', hr, hitems⟩ := ihmore (.inl rfl) hq
    refine ⟨r', hr, .itemsMore (fun heof => hdone ?_) hitem hitems⟩
    exact (hp.look id hmore (.inl rfl)).symm.trans heof

/-- An item is read in the same way when the keyword of a function follows. -/
theorem extend_item (hmore : ∀ t ∈ more.head?, t.kind = .funcKw) (h : Reads Phrase.item p slots q)
    (hnext : p.next ≠ .eof) {p' : Reader} (hp : p.Extends more p') :
    ∃ q', q.Extends more q' ∧ Reads Phrase.item p' slots q' := by
  have hsame := hp.next_of_ne_eof hnext
  cases h with
  | there hfunc hx =>
    obtain ⟨q', hq, hx⟩ := hx.extend hmore (.inr rfl) hp
    exact ⟨q', hq, .there (by rwa [hsame]) hx⟩
  | other hfunc hy =>
    cases hy with
    | there hlet hx =>
      obtain ⟨q', hq, hx⟩ := hx.extend hmore (.inr rfl) hp
      exact ⟨q', hq, .other (by rwa [hsame]) (.there (by rwa [hsame]) hx)⟩
    | other hlet hy =>
      obtain ⟨q', hq, hy⟩ := hy.extend hmore (.inr rfl) hp
      exact ⟨q', hq, .other (by rwa [hsame]) (.other (by rwa [hsame]) hy)⟩

/-- After an item no level is entered that was not before, and the limit counts as not met. -/
theorem nesting_of_item (h : Reads (Phrase.seq [.item, .recovery itemFirst]) p slots q) :
    q.nesting.depth = p.nesting.depth ∧ q.nesting.exhausted = false := by
  exact ⟨by simpa [Goal.entered] using h.depth_add_entered (Nat.zero_le _), h.exhausted_of_round⟩

/-- Items that end with the text, and items that start with a function, are read one after the
other. -/
theorem items_append (hmore : ∀ t ∈ more.head?, t.kind = .funcKw)
    (h : Reads Phrase.items p slots q) (hrest : q.rest = []) (hcalm : p.nesting.exhausted = false)
    {n : Nesting} {later : List Sketch} {r : Reader} (hlater : Reads Phrase.items ⟨more, n⟩ later r)
    (hn : p.nesting.Alike n) {p' : Reader} (hp : p.Extends more p') :
    ∃ r', r'.rest = r.rest ∧ Reads Phrase.items p' (slots ++ later) r' := by
  obtain ⟨goal, hgoal⟩ : ∃ goal : Goal, goal = Phrase.items := ⟨_, rfl⟩
  rw [← hgoal] at h
  induction h generalizing p' with
  | @itemsDone p hdone =>
    obtain ⟨rest', n'⟩ := p'
    obtain rfl : rest' = more := by simpa [hrest] using hp.rest_eq
    have hn' : n.Alike n' := ⟨hp.nesting.depth_eq.trans hn.depth_eq.symm,
      hp.nesting.exhausted_eq.trans hn.exhausted_eq.symm⟩
    obtain ⟨r', hr, hreads⟩ := @extend [] _ _ _ _ nofun hlater (.inl rfl) ⟨rest', n'⟩
      ⟨(List.append_nil _).symm, hn'⟩
    exact ⟨r', by simpa using hr.rest_eq, hreads⟩
  | itemsMore hnext hboth _ _ ih =>
    obtain ⟨hdepth, hexhausted⟩ := hboth.nesting_of_item
    have hn' := hn.exhausted_eq.trans (hcalm.trans hexhausted.symm)
    cases hboth with
    | cons hitem hrecovery =>
      obtain ⟨_, hq, hitem⟩ := hitem.extend_item hmore hnext hp
      obtain ⟨_, hr, hrecovery⟩ := hrecovery.extend hmore (.inr rfl) hq
      obtain ⟨r', hend, hitems⟩ :=
        ih hrest hexhausted ⟨hn.depth_eq.trans hdepth.symm, hn'⟩ hr hgoal
      refine ⟨r', hend, ?_⟩
      rw [List.append_assoc]
      exact .itemsMore (by rwa [hp.next_of_ne_eof hnext]) (.cons hitem hrecovery) hitems
  | _ => cases hgoal

end Reads

/-- Items are those before the keyword of a function and those from there on, also by value if the
latter are read from other tokens that are stored alike. -/
theorem Reads.valuesOf_of_cut {front back tokens : List Token} {t : Token}
    (hkind : t.kind = .funcKw) (hsolid : ∀ u ∈ t :: back, u.kind ≠ .eof)
    (hstored : tokens.map Token.stored = (t :: back).map Token.stored)
    {items items₁ items₂ : List Sketch} {n n₁ n₂ : Nesting}
    (h : Reads Phrase.items ⟨front ++ t :: back, {}⟩ items ⟨[], n⟩)
    (h₁ : Reads Phrase.items ⟨front, {}⟩ items₁ ⟨[], n₁⟩)
    (h₂ : Reads Phrase.items ⟨tokens, {}⟩ items₂ ⟨[], n₂⟩) :
    Sketch.valuesOf items = Sketch.valuesOf items₁ ++ Sketch.valuesOf items₂ := by
  obtain ⟨later, ⟨rest, m⟩, hlater, hrest, -⟩ :=
    TokenStream.exists_parsed (s := ⟨t :: back, t⟩) hsolid
  obtain rfl : rest = [] := hrest
  have hhead : ∀ u ∈ (t :: back).head?, u.kind = .funcKw := by
    rintro u ⟨rfl⟩
    exact hkind
  obtain ⟨r, -, hjoined⟩ := Reads.items_append hhead h₁ rfl rfl hlater ⟨rfl, rfl⟩
    (Reader.Extends.of_alike ⟨rfl, rfl⟩ front)
  obtain ⟨rfl, -⟩ := h.unique hjoined
  have hkinds : (t :: back).map Token.kind = tokens.map Token.kind := by
    have := congrArg (List.map TokenData.kind) hstored
    simpa [Token.stored, Function.comp_def] using this.symm
  have htokens : (Sketch.tokensOf later).map Token.stored =
      (Sketch.tokensOf items₂).map Token.stored := by
    have hlater' := hlater.tokensOf_append_rest
    have h₂' := h₂.tokensOf_append_rest
    simp only [List.append_nil, Goal.held, Sketch.tokensOf, List.nil_append] at hlater' h₂'
    rw [hlater', h₂', hstored]
  rw [Sketch.valuesOf_append, Sketch.valuesOf_congr (fun _ _ _ => Sketch.value_congr)
    (hlater.bareAll_items h₂ hkinds) htokens]

namespace View

/-- The children of a view are what stands in its slots. -/
theorem map_green_children (v : View) :
    v.children.map green = v.green.slots.filterMap fun slot => slot := by
  have hplace (parent : View) (index offset : Nat) (slots : List Slot) :
      ((placeSlots parent index offset slots).filterMap fun slot => slot).map green =
        slots.filterMap fun slot => slot := by
    induction slots generalizing index offset with
    | nil => rfl
    | cons slot rest ih => cases slot <;> simp [placeSlots, ih, green]
  exact hplace v 0 v.offset v.green.slots

/-- The values of the members of the list in the first slot, in order. -/
def memberValues? (v : View) : Option (List Green) := do
  let list ← v.node? 0
  let members ← Collection.ofView? list
  return members.members.map fun m => m.green.value

end View

/-- The members of the list of items of a text are, by value, the items that were read. -/
theorem Green.Parsed.memberValues?_eq {g : Green} {text : String} {items : List Sketch}
    {n : Nesting} (h : g.Parsed text items n) (store : Nat) :
    (View.root store g).memberValues? =
      some ((Sketch.valuesOf items).filterMap fun slot => slot) := by
  obtain ⟨id, built, hg, hbuilt⟩ := h.built
  obtain ⟨slot, rest, rfl, ⟨id', members, rfl, hmembers⟩, -⟩ := hbuilt
  obtain rfl := Option.some.inj hg
  have hvalues (list : View) (hlist : list.green.slots = members) :
      (list.children.map fun m => m.green.value) =
        (Sketch.valuesOf items).filterMap fun slot => slot := by
    have hmap : (list.children.map fun m => m.green.value) =
        (list.children.map View.green).map Green.value := by
      rw [List.map_map]
      rfl
    rw [hmap, View.map_green_children, hlist, ← hmembers.values_eq, Green.values_eq,
      List.filterMap_map, List.map_filterMap]
    rfl
  exact congrArg some (hvalues _ rfl)

/-- A text can be cut in front of a token with content. -/
theorem exists_cut_of_tokens {text : String} {t : Token} {front back : List Token}
    (h : (tokenize text).tokens = front ++ t :: back) :
    ∃ first second : String, first.toList = front.flatMap Token.chars ∧
      second.toList = (t :: back ++ [(tokenize text).eof]).flatMap Token.chars ∧
      first.utf8ByteSize + second.utf8ByteSize = text.utf8ByteSize ∧
      Text.slice? text 0 t.fullSpan.start = some first ∧
      Text.slice? text t.fullSpan.start text.utf8ByteSize = some second := by
  have hlist : (tokenize text).toList = front ++ t :: (back ++ [(tokenize text).eof]) := by
    simp [TokenStream.toList, h]
  obtain ⟨first, second, hfirst, hsecond, -, hcut⟩ := exists_cut_of_toList hlist
  exact ⟨first, second, hfirst, hsecond, hcut⟩

/-- The keyword of a function is a point from which everything is read afresh. Let a text be cut
where a token of this kind starts with its trivia, and let the text and both parts be parsed in any
coherent stores. If the text has less than 2^28 bytes, trees come out of all three. Whenever trees
come out, the items of the text are, by value, the items of the first part followed by those of the
second. -/
theorem parse_items_of_cut {st st₁ st₂ : Store} (hst : st.Coherent) (hst₁ : st₁.Coherent)
    (hst₂ : st₂.Coherent) {text : String} {t : Token} (ht : t ∈ (tokenize text).tokens)
    (hkind : t.kind = .funcKw) :
    ∃ first second, Text.slice? text 0 t.fullSpan.start = some first ∧
      Text.slice? text t.fullSpan.start text.utf8ByteSize = some second ∧
      (text.utf8ByteSize < 1 <<< 28 → ∃ v r v₁ r₁ v₂ r₂, parse text st = (.ok v, r) ∧
        parse first st₁ = (.ok v₁, r₁) ∧ parse second st₂ = (.ok v₂, r₂)) ∧
      ∀ v r v₁ r₁ v₂ r₂, parse text st = (.ok v, r) → parse first st₁ = (.ok v₁, r₁) →
        parse second st₂ = (.ok v₂, r₂) →
        ∃ items₁ items₂, v₁.memberValues? = some items₁ ∧ v₂.memberValues? = some items₂ ∧
          v.memberValues? = some (items₁ ++ items₂) := by
  obtain ⟨front, back, htokens⟩ := List.append_of_mem ht
  obtain ⟨first, second, hfirst, hsecond, hsize, hslice₁, hslice₂⟩ := exists_cut_of_tokens htokens
  obtain ⟨hfront, hback⟩ := tokenize_cut htokens hfirst hsecond
  refine ⟨first, second, hslice₁, hslice₂, fun hlen => ?_, ?_⟩
  · obtain ⟨v, r, hparse⟩ := exists_parse_eq_ok hst hlen
    obtain ⟨v₁, r₁, hparse₁⟩ := @exists_parse_eq_ok first _ hst₁ (by omega)
    obtain ⟨v₂, r₂, hparse₂⟩ := @exists_parse_eq_ok second _ hst₂ (by omega)
    exact ⟨v, r, v₁, r₁, v₂, r₂, hparse, hparse₁, hparse₂⟩
  · intro v r v₁ r₁ v₂ r₂ hparse hparse₁ hparse₂
    obtain ⟨-, g, items, y, rfl, -, hg⟩ := exists_of_parse_eq_ok hst hparse
    obtain ⟨-, g₁, items₁, y₁, rfl, -, hg₁⟩ := exists_of_parse_eq_ok hst₁ hparse₁
    obtain ⟨-, g₂, items₂, y₂, rfl, -, hg₂⟩ := exists_of_parse_eq_ok hst₂ hparse₂
    have hsolid : ∀ u ∈ t :: back, u.kind ≠ .eof := fun u hu =>
      (solid_of_mem_tokenize text u (htokens ▸ List.mem_append_right _ hu)).ne_eof
    have hstored : (tokenize second).tokens.map Token.stored = (t :: back).map Token.stored := by
      have hmoved : (tokenize second).tokens.map (Token.moved _) = t :: back :=
        congrArg TokenStream.tokens hback
      rw [← hmoved, List.map_map]
      rfl
    have hreads := hg.reads
    have hreads₁ := hg₁.reads
    rw [htokens] at hreads
    rw [hfront] at hreads₁
    have hvalues := Reads.valuesOf_of_cut hkind hsolid hstored hreads hreads₁ hg₂.reads
    refine ⟨_, _, hg₁.memberValues?_eq _, hg₂.memberValues?_eq _, ?_⟩
    rw [hg.memberValues?_eq, hvalues, List.filterMap_append]

/-- A function after a block and an operator that both lack their ends. -/
theorem parse_items_of_cut_unclosed :
    ({ tag := 0 } : Store).Coherent ∧
      ∃ t ∈ (tokenize "func f() \x7b return (1 +\nfunc g").tokens,
        t.kind = .funcKw ∧ t.fullSpan.start = 22 ∧
        ∃ v r v₁ r₁ v₂ r₂, parse "func f() \x7b return (1 +\nfunc g" { tag := 0 } = (.ok v, r) ∧
          parse "func f() \x7b return (1 +" { tag := 0 } = (.ok v₁, r₁) ∧
          parse "\nfunc g" { tag := 0 } = (.ok v₂, r₂) ∧
          ∃ items₁ items₂, v₁.memberValues? = some items₁ ∧ v₂.memberValues? = some items₂ ∧
            v.memberValues? = some (items₁ ++ items₂) := by
  have hst : ({ tag := 0 } : Store).Coherent := Store.coherent_empty 0 {}
  have ht : ⟨[⟨.newline, ['\n']⟩], .funcKw, ['f', 'u', 'n', 'c'], 23, [⟨.whitespace, [' ']⟩]⟩ ∈
      (tokenize "func f() \x7b return (1 +\nfunc g").tokens := by
    decide +kernel
  obtain ⟨first, second, hfirst, hsecond, hexists, hitems⟩ :=
    parse_items_of_cut hst hst hst ht rfl
  cases hfirst.symm.trans (by decide +kernel : _ = some "func f() \x7b return (1 +")
  cases hsecond.symm.trans (by decide +kernel : _ = some "\nfunc g")
  obtain ⟨v, r, v₁, r₁, v₂, r₂, hparse, hparse₁, hparse₂⟩ := hexists (by decide)
  exact ⟨hst, _, ht, rfl, rfl, v, r, v₁, r₁, v₂, r₂, hparse, hparse₁, hparse₂,
    hitems v r v₁ r₁ v₂ r₂ hparse hparse₁ hparse₂⟩

end Verbatim
